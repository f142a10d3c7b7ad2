import Lingx.Conf.Keep

/-! What reaches `handle_` and the setters. The calls of `handle_` in a run are collected
by a relation that follows the loop of `parse` and the calls of `parse("")` that setters
make, also in runs that do not come to their end. Their shape rests on one invariant of
the scan: behind a quoted word there is an argument. -/

namespace Lingx.Conf

section Pushed

/-- Where a space is needed, a word has been put into the arguments. -/
def Scan.Pushed (s : Scan) : Prop := s.needSpace = true → s.args ≠ []

/-- The invariant is kept, and a return for a terminated directive has arguments. -/
def Turn.Pushed : Turn → Prop
  | .next s => s.Pushed
  | .ret rc s => rc = .ok ∨ rc = .blockStart → s.args ≠ []

variable {s s' : Scan} {mem : ℕ → Byte} {pos k : ℕ} {ch : Byte} {cf cf' : ConfFile} {rc : Rc}

theorem Scan.pushed_of_not (h : s.needSpace = false) : s.Pushed := fun h' =>
  absurd (h.symm.trans h') Bool.false_ne_true

theorem startWord_pushed (hn : s.needSpace = false) : (startWord pos ch s).Pushed := by
  simp only [startWord]
  split_ifs with hsp hend hargs hbrace hr hr' hs hb hd hq
  · exact s.pushed_of_not hn
  · exact fun h => by simp at h
  · exact fun _ => hargs
  · exact fun _ => hargs
  · exact fun h => by simp at h
  · exact fun h => by simp at h
  all_goals exact Scan.pushed_of_not hn

theorem wordFound_pushed : (wordFound mem pos ch s).Pushed := by
  have hargs : s.args ++ [copyWord mem s.start pos] ≠ [] := by simp
  simp only [wordFound]
  split_ifs
  · exact fun _ => hargs
  · exact fun _ => hargs
  · exact fun _ => hargs

theorem inWord_pushed (hn : s.needSpace = false) : (inWord mem pos ch s).Pushed := by
  simp only [inWord]
  split_ifs with hb hq hd
  · exact s.pushed_of_not hn
  · exact Scan.pushed_of_not hn
  · exact Scan.pushed_of_not hn
  · split
    · exact Scan.pushed_of_not hn
    · exact wordFound_pushed

theorem scanByte_pushed (hn : s.needSpace = false) : (scanByte mem pos ch s).Pushed := by
  unfold scanByte
  split_ifs
  · exact startWord_pushed hn
  · exact inWord_pushed hn

theorem afterQuote_pushed (hargs : s.args ≠ []) : (afterQuote mem pos ch s).Pushed := by
  unfold afterQuote
  split_ifs
  · exact fun h => absurd h Bool.false_ne_true
  · exact fun _ => hargs
  · exact fun _ => hargs
  · exact scanByte_pushed rfl
  · exact fun h => by simp at h

theorem countLine_pushed (h : s.Pushed) : (countLine ch s).Pushed := by
  unfold countLine
  split_ifs <;> exact h

theorem turn_pushed (h : s.Pushed) : (turn mem pos s).Pushed := by
  have hc : (countLine (mem pos) s).Pushed := countLine_pushed h
  simp only [turn]
  split_ifs with hsharp hquoted hneed
  · exact hc
  · exact hc
  · exact afterQuote_pushed (hc hneed)
  · exact scanByte_pushed (by simpa using hneed)

/-- A refill does not touch the arguments, and returns nothing but an end or an error. -/
theorem fill_pushed (h : s.Pushed) (hf : fill cf s = .more cf' s') : s'.Pushed := by
  obtain ⟨start, rfl⟩ := fill_more_scan hf
  exact h

theorem fill_ret_rc (hf : fill cf s = .ret rc cf' s') : ¬(rc = .ok ∨ rc = .blockStart) := by
  obtain ⟨-, rfl | ⟨e, rfl⟩⟩ := fill_ret_scan hf
  · rw [endOfInput]
    split_ifs <;> simp
  · simp

theorem readLoop_pushed {s' : Scan} (h : s.Pushed) (hrun : readLoop k cf s = some (rc, cf', s'))
    (hrc : rc = .ok ∨ rc = .blockStart) : s'.args ≠ [] := by
  induction k generalizing cf s with
  | zero => cases hrun
  | succ k ih =>
    rw [readLoop] at hrun
    cases hf : fill cf s with
    | ret rc₁ cf₁ s₁ =>
      rw [hf] at hrun
      cases hrun
      exact absurd hrc (fill_ret_rc hf)
    | more cf₁ s₁ =>
      rw [hf] at hrun
      have hturn : (turn cf₁.buffer.mem cf₁.buffer.pos s₁).Pushed :=
        turn_pushed (fill_pushed h hf)
      dsimp only at hrun
      cases ht : turn cf₁.buffer.mem cf₁.buffer.pos s₁ with
      | next s₂ =>
        rw [ht] at hturn hrun
        exact ih hturn hrun
      | ret rc₂ s₂ =>
        rw [ht] at hturn hrun
        cases hrun
        exact hturn hrc

theorem readToken_args {t : Token} (h : readToken cf = some (t, cf'))
    (hrc : t.rc = .ok ∨ t.rc = .blockStart) : t.args ≠ [] := by
  rw [readToken] at h
  cases hrun : readLoop (cf.remaining + 1) cf (Scan.init cf.buffer.pos cf.line) with
  | none =>
    rw [hrun] at h
    cases h
  | some p =>
    obtain ⟨rc, cf₁, s⟩ := p
    rw [hrun] at h
    cases h
    exact readLoop_pushed (fun h => absurd h Bool.false_ne_true) hrun hrc

end Pushed

section Calls

variable {σ : Type} {modules : List (Module σ)}

/-- The calls of `parse("")` that a setter makes. -/
inductive Setter.Parses (parse : Scope → Run σ → Option (Rv × Run σ)) :
    Setter σ → Run σ → Scope → Run σ → Prop
  | here {scope : Scope} {st : σ} {k : Rv → σ → Setter σ} {r : Run σ} :
      Parses parse (.parse scope st k) r scope { r with st := st }
  | later {scope scope' : Scope} {st : σ} {k : Rv → σ → Setter σ} {r r₁ r' : Run σ} {rv : Rv} :
      parse scope { r with st := st } = some (rv, r₁) →
      Parses parse (k rv r₁.st) r₁ scope' r' → Parses parse (.parse scope st k) r scope' r'

/-- A call of `handle_`: the scope, `last`, `args_`, and the state it finds. -/
structure HandleCall (σ : Type) where
  scope : Scope
  depth : ℕ
  last : Rc
  args : List Bytes
  run : Run σ

/-- The setter of a command is called by a call of `handle_`. -/
structure HandleCall.Sets (modules : List (Module σ)) (c : HandleCall σ) (mod : Module σ)
    (cmd : Command σ) : Prop where
  found : findCommand c.scope (c.args.headD []) false (allCommands modules) = .ok (mod, cmd)
  checked : checkCommand cmd c.last c.args (c.args.headD []) = none

/-- The state in which the setter is called, and the setter. -/
def HandleCall.setterRun (c : HandleCall σ) (cmd : Command σ) : Run σ :=
  c.run.see (.call c.depth cmd.isBlock c.args)

def HandleCall.setter (c : HandleCall σ) (mod : Module σ) (cmd : Command σ) : Setter σ :=
  cmd.set ⟨c.args, c.scope, confSlot mod cmd c.scope c.run.st⟩ c.run.st

/-- The loop of `parse` gives its next token to `handle_`. -/
inductive Gives (kind : Kind) (depth : ℕ) (scope : Scope) (r : Run σ) : HandleCall σ → Prop
  | intro {t : Token} {cf : ConfFile} : readToken r.cf = some (t, cf) →
      (∀ e, t.rc ≠ .error e) → t.rc ≠ .blockDone → t.rc ≠ .fileDone →
      ¬(t.rc = .blockStart ∧ kind = .param) →
      Gives kind depth scope r
        ⟨scope, depth, t.rc, t.args, { r with cf := cf }.see (.token depth t)⟩

variable (modules) in
/-- What the loop of `parse` means by `parse("")`. -/
abbrev nestedParse (k depth : ℕ) (scope : Scope) (r : Run σ) : Option (Rv × Run σ) :=
  parseLoop modules k (.nested r.cf) (depth + 1) scope r

variable (modules) in
/-- The calls of `handle_` that a loop of `parse` makes: for its next token, for the tokens
behind it, and for those of the calls of `parse("")` by a setter. -/
inductive Handles : ℕ → Kind → ℕ → Scope → Run σ → HandleCall σ → Prop
  | here {k depth : ℕ} {kind : Kind} {scope : Scope} {r : Run σ} {c : HandleCall σ} :
      Gives kind depth scope r c → Handles (k + 1) kind depth scope r c
  | next {k depth : ℕ} {kind : Kind} {scope : Scope} {r r₁ : Run σ} {c c' : HandleCall σ} :
      Gives kind depth scope r c →
      handle modules (nestedParse modules k depth) scope depth c.last c.args c.run =
        some (.ok, r₁) →
      Handles k kind depth scope r₁ c' → Handles (k + 1) kind depth scope r c'
  | nested {k depth : ℕ} {kind : Kind} {scope scope' : Scope} {r r' : Run σ}
      {c c' : HandleCall σ} {mod : Module σ} {cmd : Command σ} :
      Gives kind depth scope r c → c.Sets modules mod cmd →
      (c.setter mod cmd).Parses (nestedParse modules k depth) (c.setterRun cmd) scope' r' →
      Handles k (.nested r'.cf) (depth + 1) scope' r' c' → Handles (k + 1) kind depth scope r c'

section Seen

variable {H H' : HandleCall σ → Prop} {r r' r'' : Run σ}

variable (modules) in
/-- The calls of setters that a part of a run adds to what has been seen come from calls of
`handle_`. -/
def CallsFrom (H : HandleCall σ → Prop) (r r' : Run σ) : Prop :=
  ∀ d b args, .call d b args ∈ r'.trace → .call d b args ∈ r.trace ∨
    ∃ c mod cmd, H c ∧ c.Sets modules mod cmd ∧ c.depth = d ∧ c.args = args ∧ cmd.isBlock = b

theorem CallsFrom.of_trace (h : r'.trace = r.trace) : CallsFrom modules H r r' :=
  fun _ _ _ hmem => .inl (h ▸ hmem)

theorem CallsFrom.trans (h : CallsFrom modules H r r') (h' : CallsFrom modules H r' r'') :
    CallsFrom modules H r r'' := fun d b args hmem =>
  (h' d b args hmem).elim (h d b args) .inr

theorem CallsFrom.mono (h : CallsFrom modules H r r') (hH : ∀ c, H c → H' c) :
    CallsFrom modules H' r r' := fun d b args hmem =>
  (h d b args hmem).imp id fun ⟨c, mod, cmd, hc, hrest⟩ => ⟨c, mod, cmd, hH c hc, hrest⟩

theorem CallsFrom.see {o : Obs} (ho : ∀ d b args, o ≠ .call d b args) :
    CallsFrom modules H r (r.see o) := by
  intro d b args hmem
  rcases List.mem_append.1 hmem with hmem | hmem
  · exact .inl hmem
  · exact absurd (List.mem_singleton.1 hmem).symm (ho d b args)

theorem CallsFrom.message (d : ℕ) (e : ConfError) : CallsFrom modules H r (r.see (.message d e)) :=
  .see fun _ _ _ h => Obs.noConfusion h

theorem Setter.run_callsFrom {parse : Scope → Run σ → Option (Rv × Run σ)} {s : Setter σ} {rv : Rv}
    (hparse : ∀ scope r₁ rv₁ r₂, s.Parses parse r scope r₁ → parse scope r₁ = some (rv₁, r₂) →
      CallsFrom modules H r₁ r₂)
    (h : s.run parse r = some (rv, r')) : CallsFrom modules H r r' := by
  induction s generalizing r with
  | done rv₀ st =>
    cases h
    exact .of_trace rfl
  | parse scope st k ih =>
    rw [Setter.run] at h
    cases hp : parse scope { r with st := st } with
    | none =>
      rw [hp] at h
      cases h
    | some p =>
      obtain ⟨rv₁, r₁⟩ := p
      rw [hp] at h
      have hst : CallsFrom modules H r { r with st := st } := .of_trace rfl
      have hfirst : CallsFrom modules H r r₁ := hst.trans (hparse scope _ rv₁ r₁ .here hp)
      exact hfirst.trans (ih rv₁ r₁.st (fun scope' r₂ rv₂ r₃ hs => hparse scope' r₂ rv₂ r₃
        (.later hp hs)) h)

/-- A call of `handle_` adds itself, if it comes to a setter, and what the setter adds. -/
theorem handle_callsFrom {parse : Scope → Run σ → Option (Rv × Run σ)} {c : HandleCall σ} {rv : Rv}
    (hc : H c)
    (hparse : ∀ mod cmd scope r₁ rv₁ r₂, c.Sets modules mod cmd →
      (c.setter mod cmd).Parses parse (c.setterRun cmd) scope r₁ →
      parse scope r₁ = some (rv₁, r₂) → CallsFrom modules H r₁ r₂)
    (h : handle modules parse c.scope c.depth c.last c.args c.run = some (rv, r')) :
    CallsFrom modules H c.run r' := by
  simp only [handle] at h
  split at h
  · cases h
    exact .message _ _
  · rename_i mod cmd hfind
    split at h
    · cases h
      exact .message _ _
    · rename_i hcheck
      have hsets : c.Sets modules mod cmd := ⟨hfind, hcheck⟩
      have hcall : CallsFrom modules H c.run (c.setterRun cmd) := by
        intro d b args hmem
        rcases List.mem_append.1 hmem with hmem | hmem
        · exact .inl hmem
        · cases List.mem_singleton.1 hmem
          exact .inr ⟨c, mod, cmd, hc, hsets, rfl, rfl, rfl⟩
      have hrun : ∀ rv₁ r₁, (c.setter mod cmd).run parse (c.setterRun cmd) = some (rv₁, r₁) →
          CallsFrom modules H c.run r₁ := fun rv₁ r₁ hs =>
        hcall.trans (Setter.run_callsFrom (fun scope r₁ rv₁ r₂ => hparse mod cmd scope r₁ rv₁ r₂
          hsets) hs)
      split at h
      · cases h
      · rename_i hs
        cases h
        exact hrun _ _ hs
      · rename_i hs
        cases h
        exact hrun _ _ hs
      · rename_i hs
        cases h
        exact (hrun _ _ hs).trans (.message _ _)

/-- Each call of a setter that a run has seen is one of the calls of `handle_` that the loop
makes. -/
theorem parseLoop_callsFrom {k depth : ℕ} {kind : Kind} {scope : Scope} {rv : Rv}
    (h : parseLoop modules k kind depth scope r = some (rv, r')) :
    CallsFrom modules (Handles modules k kind depth scope r) r r' := by
  induction k generalizing kind depth scope r rv r' with
  | zero => cases h
  | succ k ih =>
    rw [parseLoop] at h
    split at h
    · cases h
    rename_i t cf hread
    have htoken : CallsFrom modules (Handles modules (k + 1) kind depth scope r) r
        ({ r with cf := cf }.see (.token depth t)) := by
      have hcf : CallsFrom modules (Handles modules (k + 1) kind depth scope r) r
        { r with cf := cf } := .of_trace rfl
      exact hcf.trans (.see fun _ _ _ h => Obs.noConfusion h)
    dsimp only at h
    split at h
    · cases h
      exact htoken
    · split_ifs at h <;> cases h
      · exact htoken.trans (.message _ _)
      · exact htoken
    · split_ifs at h <;> cases h
      · exact htoken.trans (.message _ _)
      · exact htoken
    · rename_i herror hblockDone hfileDone
      split_ifs at h with hkind
      · cases h
        exact htoken.trans (.message _ _)
      · have hgives : Gives kind depth scope r
            ⟨scope, depth, t.rc, t.args, { r with cf := cf }.see (.token depth t)⟩ :=
          .intro hread herror hblockDone hfileDone hkind
        have hhandle : ∀ rv₁ r₁,
            handle modules (nestedParse modules k depth) scope depth t.rc t.args
              ({ r with cf := cf }.see (.token depth t)) = some (rv₁, r₁) →
            CallsFrom modules (Handles modules (k + 1) kind depth scope r)
              ({ r with cf := cf }.see (.token depth t)) r₁ := by
          intro rv₁ r₁ hrun
          refine handle_callsFrom (Handles.here hgives) ?_ hrun
          intro mod cmd scope' r₂ rv₂ r₃ hsets hparses hp
          exact (ih hp).mono fun c hc => .nested hgives hsets hparses hc
        split at h
        · cases h
        · rename_i r₁ hrun
          exact (htoken.trans (hhandle _ _ hrun)).trans ((ih h).mono fun c hc =>
            .next hgives hrun hc)
        · rename_i rv₁ r₁ hok hrun
          cases h
          exact htoken.trans (hhandle _ _ hrun)

end Seen

/-- The bits of a type that allow a number of arguments, the name included. -/
inductive CountAllowed (type n : ℕ) : Prop
  | any (h : type &&& CONF_ANY ≠ 0)
  | flag (h : type &&& CONF_FLAG ≠ 0) (hn : n = 2)
  | oneMore (h : type &&& CONF_1MORE ≠ 0) (hn : 2 ≤ n)
  | twoMore (h : type &&& CONF_2MORE ≠ 0) (hn : 3 ≤ n)
  | take {i bit : ℕ} (hi : argumentNumber[i]? = some bit) (h : type &&& bit ≠ 0) (hn : n = i + 1)

/-- A call of `handle_` fits the declaration of a command. -/
structure HandleCall.Fits (c : HandleCall σ) (mod : Module σ) (cmd : Command σ) : Prop where
  name : c.args.head? = some cmd.name
  block : c.last = .blockStart ↔ cmd.type &&& CONF_BLOCK ≠ 0
  count : CountAllowed cmd.type c.args.length
  moduleType : mod.type = c.scope.moduleType
  cmdType : cmd.type &&& c.scope.cmdType ≠ 0
  /-- the assertion in `parse_flag_arg` -/
  flag : cmd.type &&& CONF_ANY = 0 → cmd.type &&& CONF_FLAG ≠ 0 → c.args.length = 2
  /-- the access of `values[1]` in `Log_set_log` -/
  oneMore : cmd.type &&& CONF_ANY = 0 → cmd.type &&& CONF_1MORE ≠ 0 → 1 < c.args.length

variable (modules) in
/-- The assertions of `handle_`, the range of `Argument_number_`, and what holds where a
setter is called. -/
structure HandleCall.Shaped (c : HandleCall σ) : Prop where
  last : c.last = .ok ∨ c.last = .blockStart
  args : c.args ≠ []
  index : c.args.length ≤ CONF_MAX_ARGS → c.args.length - 1 < argumentNumber.length
  fits : ∀ mod cmd, c.Sets modules mod cmd → c.Fits mod cmd

theorem countAllowed_of_ok {type n : ℕ} (hn : 0 < n) (h : argumentsOk type n = true) :
    CountAllowed type n := by
  rw [argumentsOk] at h
  split_ifs at h with hany hflag hone htwo hmax
  · exact .any hany
  · exact .flag hflag (by simpa using h)
  · exact .oneMore hone (by simpa using h)
  · exact .twoMore htwo (by simpa using h)
  · have hlt : n - 1 < argumentNumber.length := by
      have hlen : argumentNumber.length = CONF_MAX_ARGS := rfl
      omega
    rw [List.getD_eq_getElem?_getD, List.getElem?_eq_getElem hlt, Option.getD_some] at h
    exact .take (List.getElem?_eq_getElem hlt) (by simpa using h) (by omega)

theorem argumentsOk_flag {type n : ℕ} (h : argumentsOk type n = true)
    (hany : type &&& CONF_ANY = 0) (hflag : type &&& CONF_FLAG ≠ 0) : n = 2 := by
  rw [argumentsOk, if_neg (not_not.2 hany), if_pos hflag] at h
  simpa using h

theorem argumentsOk_oneMore {type n : ℕ} (h : argumentsOk type n = true)
    (hany : type &&& CONF_ANY = 0) (hone : type &&& CONF_1MORE ≠ 0) : 1 < n := by
  rw [argumentsOk, if_neg (not_not.2 hany)] at h
  split_ifs at h
  · have : n = 2 := by simpa using h
    omega
  · exact Nat.lt_of_succ_le (of_decide_eq_true h)

theorem checkCommand_args {cmd : Command σ} {last : Rc} {args : List Bytes} {name : Bytes}
    (h : checkCommand cmd last args name = none) : argumentsOk cmd.type args.length = true := by
  rw [checkCommand] at h
  split_ifs at h with h₁ h₂ h₃
  exact h₃

/-- What is given to `handle_` ended with `;` or `{` and has its name. -/
theorem Gives.shape {kind : Kind} {depth : ℕ} {scope : Scope} {r : Run σ} {c : HandleCall σ}
    (h : Gives kind depth scope r c) : (c.last = .ok ∨ c.last = .blockStart) ∧ c.args ≠ [] := by
  obtain ⟨hread, herr, hdone, hfile, -⟩ := h
  rename_i t cf
  have hrc : t.rc = .ok ∨ t.rc = .blockStart := by
    cases hrc : t.rc with
    | ok => exact .inl rfl
    | blockStart => exact .inr rfl
    | blockDone => exact absurd hrc hdone
    | fileDone => exact absurd hrc hfile
    | error e => exact absurd hrc (herr e)
  exact ⟨hrc, readToken_args hread hrc⟩

/-- A command that is found and checked is declared for the call. -/
theorem HandleCall.Sets.fits {c : HandleCall σ} {mod : Module σ} {cmd : Command σ}
    (hs : c.Sets modules mod cmd) (hargs : c.args ≠ []) : c.Fits mod cmd := by
  obtain ⟨hname, hmod, hcmd⟩ := findCommand_fits hs.found
  have hok := checkCommand_args hs.checked
  have hblock := checkCommand_none hs.checked
  have hpos := List.length_pos_of_ne_nil hargs
  refine ⟨?_, ?_, countAllowed_of_ok hpos hok, hmod, hcmd, argumentsOk_flag hok,
    argumentsOk_oneMore hok⟩
  · obtain ⟨name, args, he⟩ := List.exists_cons_of_ne_nil hargs
    rw [he] at hname ⊢
    exact congrArg some hname
  · have hdec : decide (c.last = .blockStart) = true ↔ cmd.type &&& CONF_BLOCK ≠ 0 := by
      rw [← hblock, Command.isBlock, decide_eq_true_iff]
    rwa [decide_eq_true_iff] at hdec

theorem handles_shaped {k depth : ℕ} {kind : Kind} {scope : Scope} {r : Run σ} {c : HandleCall σ}
    (h : Handles modules k kind depth scope r c) : c.Shaped modules := by
  induction h with
  | here hg =>
    obtain ⟨hlast, hargs⟩ := hg.shape
    refine ⟨hlast, hargs, fun hmax => ?_, fun mod cmd hs => hs.fits hargs⟩
    have hlen : argumentNumber.length = CONF_MAX_ARGS := rfl
    have hpos := List.length_pos_of_ne_nil hargs
    omega
  | next _ _ _ ih => exact ih
  | nested _ _ _ _ ih => exact ih

/-- No directive reaches its setter with the wrong shape: whatever is read and whatever
modules there are, each call of `handle_` that a loop of `parse` makes meets the
assertions, and its setter is called as the command is declared. The calls of setters
that a run has seen come from these. -/
theorem parse_shaped (modules : List (Module σ)) (k : ℕ) (kind : Kind) (depth : ℕ) (scope : Scope)
    (r : Run σ) :
    (∀ c, Handles modules k kind depth scope r c → c.Shaped modules) ∧
    ∀ rv r', parseLoop modules k kind depth scope r = some (rv, r') →
      ∀ d b args, .call d b args ∈ r'.trace → .call d b args ∈ r.trace ∨
        ∃ c mod cmd, Handles modules k kind depth scope r c ∧ c.Sets modules mod cmd ∧
          c.depth = d ∧ c.args = args ∧ cmd.isBlock = b :=
  ⟨fun _ h => handles_shaped h, fun _ _ h => parseLoop_callsFrom h⟩

end Calls

/-- A module of one command, declared `CONF_ANY` beside `CONF_FLAG`. -/
def anyFlagCommand : Command Unit where
  name := ascii "x"
  type := CONF_ANY ||| CONF_FLAG ||| MAIN_CONF
  conf := 0
  set _ st := .done .ok st

def anyFlagModule : Module Unit := ⟨CORE_MODULE, 0, fun _ => 0, [anyFlagCommand]⟩

def mainScope : Scope := ⟨none, CORE_MODULE, MAIN_CONF⟩

theorem gives_any_flag : ∃ r : Run Unit,
    Gives .param 0 mainScope ⟨.param (ascii "x;"), (), []⟩ ⟨mainScope, 0, .ok, [ascii "x"], r⟩ :=
  ⟨_, .intro (t := ⟨.ok, [ascii "x"], 0⟩) rfl (fun _ h => Rc.noConfusion h)
    (fun h => Rc.noConfusion h) (fun h => Rc.noConfusion h) (fun h => Rc.noConfusion h.1)⟩

/-- With `CONF_ANY` the setter of a flag is called without a value. -/
theorem handles_any_flag : ∃ c : HandleCall Unit,
    Handles [anyFlagModule] 3 .param 0 mainScope ⟨.param (ascii "x;"), (), []⟩ c ∧
      c.Sets [anyFlagModule] anyFlagModule anyFlagCommand ∧
      anyFlagCommand.type &&& CONF_FLAG ≠ 0 ∧ c.args.length ≠ 2 := by
  obtain ⟨r, hr⟩ := gives_any_flag
  have hfound : findCommand mainScope (ascii "x") false (allCommands [anyFlagModule]) =
      .ok (anyFlagModule, anyFlagCommand) := by
    rfl
  exact ⟨_, .here hr, ⟨hfound, rfl⟩, by decide, show 1 ≠ 2 by decide⟩

theorem parse_shaped_any : ∃ c : HandleCall Unit,
    Handles [anyFlagModule] 3 .param 0 mainScope ⟨.param (ascii "x;"), (), []⟩ c ∧
      c.Shaped [anyFlagModule] := by
  obtain ⟨r, hr⟩ := gives_any_flag
  exact ⟨_, .here hr, (parse_shaped [anyFlagModule] 3 .param 0 mainScope _).1 _ (.here hr)⟩

end Lingx.Conf

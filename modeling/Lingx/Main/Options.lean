import Lingx.Conf.Parse
import Lingx.Library.Except
import Lingx.Logs.State
import Lingx.Process

/-! The command line. `Get_options_` walks the arguments; an option with a value takes the
rest of its argument or, where there is no rest, the next argument, which may be empty. The
settings of a command line are stated on its arguments; the last one for an option counts. -/

namespace Lingx.Main

open Library

/-- The default values that the build sets, `LNX_PREFIX` and `LNX_CONF_PATH`. -/
structure Defaults where
  prefix_ : Bytes
  confPath : Bytes
  deriving DecidableEq, Repr

/-- The globals that `Get_options_` writes. -/
structure Options where
  optShowHelp : Bool := false
  optShowVersion : Bool := false
  optShowConfigure : Bool := false
  optTestConfig : Bool := false
  optQuietMode : Bool := false
  optPrefix : Bytes
  optConfFile : Bytes
  optConfParam : Bytes := []
  optSignal : Bytes := []
  processType : ProcessType := .single
  deriving DecidableEq, Repr

/-- The options that have a value. -/
inductive Opt where
  | p | c | g | s
  deriving DecidableEq, Repr

def Opt.letter : Opt → Byte
  | p => 0x70
  | c => 0x63
  | g => 0x67
  | s => 0x73

inductive OptionError where
  | notAnOption (arg : Bytes)
  | requires (opt : Opt)
  | invalidSignal (value : Bytes)
  | invalidLetter (ch : Byte)
  deriving DecidableEq, Repr

def signals : List Bytes := ["stop", "quit", "reopen", "reload"].map ascii

/-- The options without a value. -/
def setFlag (o : Options) (ch : Byte) : Option Options :=
  if ch = 0x3f ∨ ch = 0x68 then some { o with optShowVersion := true, optShowHelp := true }
  else if ch = 0x76 then some { o with optShowVersion := true }
  else if ch = 0x56 then some { o with optShowVersion := true, optShowConfigure := true }
  else if ch = 0x74 then some { o with optTestConfig := true }
  else if ch = 0x71 then some { o with optQuietMode := true }
  else none

def optOf (ch : Byte) : Option Opt := [Opt.p, .c, .g, .s].find? (·.letter = ch)

def setValue (o : Options) (opt : Opt) (value : Bytes) : Except OptionError Options :=
  match opt with
  | .p => .ok { o with optPrefix := value }
  | .c => .ok { o with optConfFile := value }
  | .g => .ok { o with optConfParam := value }
  | .s =>
    if value ∈ signals then .ok { o with optSignal := value, processType := .signaller }
    else .error (.invalidSignal value)

/-- The letters of an argument, with the argument that follows it, if there is one; also
whether that has been taken. -/
def readLetters (o : Options) : Bytes → Option Bytes → Except OptionError (Options × Bool)
  | [], _ => .ok (o, false)
  | ch :: p, next =>
    match setFlag o ch with
    | some o => readLetters o p next
    | none =>
      match optOf ch with
      | none => .error (.invalidLetter ch)
      | some opt =>
        if p ≠ [] then do
          let o ← setValue o opt p
          .ok (o, false)
        else
          match next with
          | none => .error (.requires opt)
          | some value => do
            let o ← setValue o opt value
            .ok (o, true)

def readArgument (o : Options) (arg : Bytes) (next : Option Bytes) :
    Except OptionError (Options × Bool) :=
  match arg with
  | [] => .error (.notAnOption arg)
  | ch :: p => if ch ≠ 0x2d then .error (.notAnOption arg) else readLetters o p next

/-- The loop of `Get_options_`, over the arguments behind the name of the program. -/
def getOptionsLoop (o : Options) : List Bytes → Except OptionError Options
  | [] => .ok o
  | [arg] => do
    let (o, _) ← readArgument o arg none
    .ok o
  | arg :: value :: args => do
    let (o, taken) ← readArgument o arg (some value)
    if taken then getOptionsLoop o args else getOptionsLoop o (value :: args)

def Options.init (d : Defaults) : Options := { optPrefix := d.prefix_, optConfFile := d.confPath }

/-- `Get_options_`. -/
def getOptions (d : Defaults) (argv : List Bytes) : Except OptionError Options :=
  getOptionsLoop (.init d) argv.tail

/-- The members of class `Cycle` that come from the command line. -/
structure InitCycle where
  prefix_ : Bytes
  confFile : Bytes
  confParam : Bytes
  logLevel : Logs.Level
  deriving DecidableEq, Repr

/-- `Process_options_`; the level is the one of the log that the cycle has. -/
def processOptions (o : Options) (logLevel : Logs.Level) : InitCycle where
  prefix_ := Logs.tailSeparator o.optPrefix
  confFile := Logs.getFullName o.optPrefix o.optConfFile
  confParam := o.optConfParam
  logLevel := if o.optTestConfig then Logs.INFO else logLevel

/-- The `type` that `Conf::parse` finds for a name, with the descriptor of `conf_file_`
unless that is null; `none` is an access through null. -/
def parseType (filename : Bytes) (confFile : Option ℤ) : Option Conf.Kind :=
  if filename ≠ [] then some .file
  else do
    let fd ← confFile
    some (if fd ≠ -1 then .block else .param)

/-- The `type` of the call that `Init_new_cycle` makes for the configuration file; the call
of `param()` before it has left no `conf_file_`. -/
def initNewCycleParse (old : InitCycle) : Option Conf.Kind := parseType old.confFile none

/-- The letters of the options without a value, `?hvVtq`. -/
def flagLetters : List Byte := [0x3f, 0x68, 0x76, 0x56, 0x74, 0x71]

/-- The values of an option that are accepted. -/
def Allowed (opt : Opt) (value : Bytes) : Prop := opt = .s → value ∈ signals

/-- The arguments of a command line that is accepted, with the values they set. -/
inductive CommandLine : List Bytes → List (Opt × Bytes) → Prop
  | nil : CommandLine [] []
  | flags {fs : Bytes} {args : List Bytes} {settings : List (Opt × Bytes)}
      (hfs : ∀ ch ∈ fs, ch ∈ flagLetters) (h : CommandLine args settings) :
      CommandLine ((0x2d :: fs) :: args) settings
  | attached {fs value : Bytes} {opt : Opt} {args : List Bytes} {settings : List (Opt × Bytes)}
      (hfs : ∀ ch ∈ fs, ch ∈ flagLetters) (hne : value ≠ []) (hv : Allowed opt value)
      (h : CommandLine args settings) :
      CommandLine ((0x2d :: (fs ++ opt.letter :: value)) :: args) ((opt, value) :: settings)
  | detached {fs value : Bytes} {opt : Opt} {args : List Bytes} {settings : List (Opt × Bytes)}
      (hfs : ∀ ch ∈ fs, ch ∈ flagLetters) (hv : Allowed opt value)
      (h : CommandLine args settings) :
      CommandLine ((0x2d :: (fs ++ [opt.letter])) :: value :: args) ((opt, value) :: settings)

/-- The last value that is set for an option, or its default. -/
def lastValue (opt : Opt) (settings : List (Opt × Bytes)) (default : Bytes) : Bytes :=
  settings.foldl (fun value s => if s.1 = opt then s.2 else value) default

section Letters

variable {o o' : Options} {ch : Byte} {opt : Opt} {value p fs : Bytes} {next : Option Bytes}
  {taken : Bool}

/-- The names that an option sets. -/
structure Names (o : Options) (pre conf : Bytes) : Prop where
  pre : o.optPrefix = pre
  conf : o.optConfFile = conf

theorem setFlag_of_mem (h : ch ∈ flagLetters) :
    ∃ o', setFlag o ch = some o' ∧ Names o' o.optPrefix o.optConfFile := by
  simp only [flagLetters, List.mem_cons, List.not_mem_nil, or_false] at h
  unfold setFlag
  rcases h with rfl | rfl | rfl | rfl | rfl | rfl
  · exact ⟨_, rfl, rfl, rfl⟩
  · exact ⟨_, rfl, rfl, rfl⟩
  · exact ⟨_, rfl, rfl, rfl⟩
  · exact ⟨_, rfl, rfl, rfl⟩
  · exact ⟨_, rfl, rfl, rfl⟩
  · exact ⟨_, rfl, rfl, rfl⟩

theorem mem_of_setFlag (h : setFlag o ch = some o') : ch ∈ flagLetters := by
  unfold setFlag at h
  simp only [flagLetters, List.mem_cons, List.not_mem_nil, or_false]
  split_ifs at h with h₁ h₂ h₃ h₄ h₅
  · exact h₁.elim .inl fun h => .inr (.inl h)
  · exact .inr (.inr (.inl h₂))
  · exact .inr (.inr (.inr (.inl h₃)))
  · exact .inr (.inr (.inr (.inr (.inl h₄))))
  · exact .inr (.inr (.inr (.inr (.inr h₅))))

theorem setFlag_letter (opt : Opt) : setFlag o opt.letter = none := by
  cases opt <;> rfl

theorem optOf_letter (opt : Opt) : optOf opt.letter = some opt := by
  cases opt <;> decide

theorem letter_of_optOf (h : optOf ch = some opt) : ch = opt.letter := by
  simpa [eq_comm] using List.find?_some h

theorem setValue_of_allowed (h : Allowed opt value) : ∃ o', setValue o opt value = .ok o' ∧
    Names o' (if opt = .p then value else o.optPrefix)
      (if opt = .c then value else o.optConfFile) := by
  cases opt with
  | p => exact ⟨_, rfl, rfl, rfl⟩
  | c => exact ⟨_, rfl, rfl, rfl⟩
  | g => exact ⟨_, rfl, rfl, rfl⟩
  | s => exact ⟨_, if_pos (h rfl), rfl, rfl⟩

theorem allowed_of_setValue (h : setValue o opt value = .ok o') : Allowed opt value := by
  rintro rfl
  by_contra hv
  rw [setValue, if_neg hv] at h
  cases h

/-- The letters of options without a value, in front of others. -/
theorem readLetters_flags (h : ∀ ch ∈ fs, ch ∈ flagLetters) :
    ∃ o', Names o' o.optPrefix o.optConfFile ∧
      ∀ p next, readLetters o (fs ++ p) next = readLetters o' p next := by
  induction fs generalizing o with
  | nil => exact ⟨o, ⟨rfl, rfl⟩, fun _ _ => rfl⟩
  | cons ch fs ih =>
    obtain ⟨hch, hfs⟩ := List.forall_mem_cons.1 h
    obtain ⟨o₁, ho₁, hn₁⟩ := setFlag_of_mem (o := o) hch
    obtain ⟨o₂, hn₂, ho₂⟩ := ih (o := o₁) hfs
    refine ⟨o₂, ⟨hn₂.pre.trans hn₁.pre, hn₂.conf.trans hn₁.conf⟩, fun p next => ?_⟩
    rw [← ho₂, List.cons_append, readLetters, ho₁]

theorem readLetters_ok (h : readLetters o p next = .ok (o', taken)) :
    ∃ fs, (∀ ch ∈ fs, ch ∈ flagLetters) ∧
      ((taken = false ∧ p = fs) ∨
      (∃ opt value, taken = false ∧ p = fs ++ opt.letter :: value ∧ value ≠ [] ∧
        Allowed opt value) ∨
      ∃ opt value, taken = true ∧ p = fs ++ [opt.letter] ∧ next = some value ∧
        Allowed opt value) := by
  induction p generalizing o with
  | nil =>
    cases h
    exact ⟨[], by simp, .inl ⟨rfl, rfl⟩⟩
  | cons ch p ih =>
    rw [readLetters] at h
    cases hf : setFlag o ch with
    | some o₁ =>
      rw [hf] at h
      obtain ⟨fs, hfs, hrest⟩ := ih h
      refine ⟨ch :: fs, List.forall_mem_cons.2 ⟨mem_of_setFlag hf, hfs⟩, ?_⟩
      rcases hrest with ⟨rfl, rfl⟩ | ⟨opt, value, rfl, rfl, hv⟩ | ⟨opt, value, rfl, rfl, hv⟩
      · exact .inl ⟨rfl, rfl⟩
      · exact .inr (.inl ⟨opt, value, rfl, rfl, hv⟩)
      · exact .inr (.inr ⟨opt, value, rfl, rfl, hv⟩)
    | none =>
      rw [hf] at h
      refine ⟨[], by simp, .inr ?_⟩
      cases ho : optOf ch with
      | none =>
        rw [ho] at h
        cases h
      | some opt =>
        obtain rfl := letter_of_optOf ho
        rw [ho] at h
        by_cases hp : p = []
        · subst hp
          cases next with
          | none => cases h
          | some value =>
            obtain ⟨o₁, hv, h⟩ := bind_eq_ok.1 h
            cases h
            exact .inr ⟨opt, value, rfl, rfl, rfl, allowed_of_setValue hv⟩
        · simp only [if_pos hp] at h
          obtain ⟨o₁, hv, h⟩ := bind_eq_ok.1 h
          cases h
          exact .inl ⟨opt, p, rfl, rfl, hp, allowed_of_setValue hv⟩

end Letters

section Arguments

variable {o o' : Options} {args : List Bytes} {settings : List (Opt × Bytes)} {opt : Opt}
  {value fs : Bytes} {next : Option Bytes}

@[simp] theorem readArgument_dash : readArgument o (0x2d :: fs) next = readLetters o fs next := rfl

theorem readArgument_flags (hfs : ∀ ch ∈ fs, ch ∈ flagLetters) :
    ∃ o', Names o' o.optPrefix o.optConfFile ∧
      ∀ next, readArgument o (0x2d :: fs) next = .ok (o', false) := by
  obtain ⟨o₁, hn, ho₁⟩ := readLetters_flags (o := o) hfs
  refine ⟨o₁, hn, fun next => ?_⟩
  have h := ho₁ [] next
  rwa [List.append_nil] at h

theorem readArgument_attached (hfs : ∀ ch ∈ fs, ch ∈ flagLetters) (hne : value ≠ [])
    (hv : Allowed opt value) :
    ∃ o', Names o' (if opt = .p then value else o.optPrefix)
        (if opt = .c then value else o.optConfFile) ∧
      ∀ next, readArgument o (0x2d :: (fs ++ opt.letter :: value)) next = .ok (o', false) := by
  obtain ⟨o₁, hn₁, ho₁⟩ := readLetters_flags (o := o) hfs
  obtain ⟨o₂, ho₂, hn₂⟩ := setValue_of_allowed (o := o₁) hv
  rw [hn₁.pre, hn₁.conf] at hn₂
  refine ⟨o₂, hn₂, fun next => ?_⟩
  rw [readArgument_dash, ho₁, readLetters, setFlag_letter, optOf_letter]
  simp only [if_pos hne, ho₂, ok_bind]

theorem readArgument_detached (hfs : ∀ ch ∈ fs, ch ∈ flagLetters) (hv : Allowed opt value) :
    ∃ o', Names o' (if opt = .p then value else o.optPrefix)
        (if opt = .c then value else o.optConfFile) ∧
      readArgument o (0x2d :: (fs ++ [opt.letter])) (some value) = .ok (o', true) := by
  obtain ⟨o₁, hn₁, ho₁⟩ := readLetters_flags (o := o) hfs
  obtain ⟨o₂, ho₂, hn₂⟩ := setValue_of_allowed (o := o₁) hv
  rw [hn₁.pre, hn₁.conf] at hn₂
  refine ⟨o₂, hn₂, ?_⟩
  rw [readArgument_dash, ho₁, readLetters, setFlag_letter, optOf_letter]
  simp only [ne_eq, not_true_eq_false, if_false, ho₂, ok_bind]

theorem getOptionsLoop_cons {arg : Bytes}
    (h : ∀ next, readArgument o arg next = .ok (o', false)) :
    getOptionsLoop o (arg :: args) = getOptionsLoop o' args := by
  cases args with
  | nil => simp only [getOptionsLoop, h, ok_bind]
  | cons value args => simp only [getOptionsLoop, h, ok_bind, Bool.false_eq_true, if_false]

/-- The values of a command line of the grammar are what `Get_options_` leaves. -/
theorem CommandLine.accepted (h : CommandLine args settings) :
    ∃ o', getOptionsLoop o args = .ok o' ∧
      Names o' (lastValue .p settings o.optPrefix) (lastValue .c settings o.optConfFile) := by
  induction h generalizing o with
  | nil => exact ⟨o, rfl, rfl, rfl⟩
  | flags hfs _ ih =>
    obtain ⟨o₁, hn, ho₁⟩ := readArgument_flags (o := o) hfs
    rw [getOptionsLoop_cons ho₁, ← hn.pre, ← hn.conf]
    exact ih
  | @attached fs value opt args settings hfs hne hv _ ih =>
    obtain ⟨o₁, hn, ho₁⟩ := readArgument_attached (o := o) hfs hne hv
    obtain ⟨o', ho', hn'⟩ := ih (o := o₁)
    rw [hn.pre, hn.conf] at hn'
    exact ⟨o', (getOptionsLoop_cons ho₁).trans ho', hn'⟩
  | @detached fs value opt args settings hfs hv _ ih =>
    obtain ⟨o₁, hn, ho₁⟩ := readArgument_detached (o := o) hfs hv
    obtain ⟨o', ho', hn'⟩ := ih (o := o₁)
    rw [hn.pre, hn.conf] at hn'
    refine ⟨o', ?_, hn'⟩
    simp only [getOptionsLoop, ho₁, ok_bind, if_true]
    exact ho'

/-- An argument that is accepted begins a command line of the grammar. -/
theorem CommandLine.of_readArgument {arg : Bytes} {taken : Bool}
    (h : readArgument o arg next = .ok (o', taken)) :
    (taken = false ∧ ∀ args settings, CommandLine args settings →
      ∃ settings', CommandLine (arg :: args) settings') ∨
    taken = true ∧ ∃ value, next = some value ∧ ∀ args settings, CommandLine args settings →
      ∃ settings', CommandLine (arg :: value :: args) settings' := by
  cases arg with
  | nil => cases h
  | cons ch p =>
    by_cases hch : ch = 0x2d
    · subst hch
      obtain ⟨fs, hfs, hcase⟩ := readLetters_ok h
      rcases hcase with ⟨ht, rfl⟩ | ⟨opt, value, ht, rfl, hne, hv⟩ | ⟨opt, value, ht, rfl, hn, hv⟩
      · exact .inl ⟨ht, fun _ _ hl => ⟨_, .flags hfs hl⟩⟩
      · exact .inl ⟨ht, fun _ _ hl => ⟨_, .attached hfs hne hv hl⟩⟩
      · exact .inr ⟨ht, value, hn, fun _ _ hl => ⟨_, .detached hfs hv hl⟩⟩
    · rw [readArgument, if_pos hch] at h
      cases h

theorem CommandLine.of_accepted (h : getOptionsLoop o args = .ok o') :
    ∃ settings, CommandLine args settings := by
  induction o, args using getOptionsLoop.induct generalizing o' with
  | case1 o => exact ⟨[], .nil⟩
  | case2 o arg =>
    obtain ⟨⟨o₁, taken⟩, ha, -⟩ := bind_eq_ok.1 h
    rcases of_readArgument ha with ⟨-, hl⟩ | ⟨-, value, hn, -⟩
    · exact hl [] [] .nil
    · cases hn
  | case3 o arg value args ih₁ ih₂ =>
    obtain ⟨⟨o₁, taken⟩, ha, h⟩ := bind_eq_ok.1 h
    rcases of_readArgument ha with ⟨rfl, hl⟩ | ⟨rfl, v, hn, hl⟩
    · obtain ⟨settings, hs⟩ := ih₂ o₁ h
      exact hl _ _ hs
    · cases hn
      obtain ⟨settings, hs⟩ := ih₁ o₁ h
      exact hl _ _ hs

end Arguments

theorem getFullName_eq_nil {pre name : Bytes} :
    Logs.getFullName pre name = [] ↔ pre = [] ∧ name = [] := by
  have htail : Logs.tailSeparator pre = [] ↔ pre = [] := by
    unfold Logs.tailSeparator
    split_ifs with h
    · simp [h.1]
    · rfl
  unfold Logs.getFullName
  split_ifs with h
  · refine ⟨fun hn => ?_, fun hn => hn.2⟩
    rw [hn] at h
    cases h
  · rw [List.append_eq_nil_iff, htail]

theorem parseType_null {filename : Bytes} : parseType filename none ≠ none ↔ filename ≠ [] := by
  unfold parseType
  split_ifs with h
  · simp [h]
  · simpa using h

/-- The call of `parse` that a command line leads to has the name of a file, and so does
not go through the null `conf_file_`, exactly when the last value for the prefix and the
last one for the configuration file are not both empty, a default being the value where
none is given. The command lines with such values are those that are accepted. -/
theorem getOptions_parseType (d : Defaults) (argv : List Bytes) :
    ((∃ o, getOptions d argv = .ok o) ↔ ∃ settings, CommandLine argv.tail settings) ∧
    ∀ settings o level, CommandLine argv.tail settings → getOptions d argv = .ok o →
      ((processOptions o level).confFile ≠ [] ↔
        ¬(lastValue .p settings d.prefix_ = [] ∧ lastValue .c settings d.confPath = [])) ∧
      (initNewCycleParse (processOptions o level) ≠ none ↔
        ¬(lastValue .p settings d.prefix_ = [] ∧ lastValue .c settings d.confPath = [])) := by
  refine ⟨⟨fun ⟨o, ho⟩ => CommandLine.of_accepted ho, fun ⟨settings, h⟩ => ?_⟩, ?_⟩
  · obtain ⟨o, ho, -⟩ := h.accepted (o := .init d)
    exact ⟨o, ho⟩
  · intro settings o level h ho
    obtain ⟨o', ho', hn⟩ := h.accepted (o := .init d)
    obtain rfl : o' = o := Except.ok.inj (ho'.symm.trans ho)
    have hname : (processOptions o' level).confFile ≠ [] ↔
        ¬(lastValue .p settings d.prefix_ = [] ∧ lastValue .c settings d.confPath = []) := by
      rw [processOptions, ne_eq, getFullName_eq_nil, hn.pre, hn.conf]
      rfl
    exact ⟨hname, parseType_null.trans hname⟩

/-- The values that the build sets by default. -/
def builtDefaults : Defaults := ⟨ascii "/usr/local/lingx", ascii "conf/lingx.conf"⟩

/-- `lingx -p "" -c ""` is accepted and leads to an access through null. -/
theorem getOptions_empty_values :
    (getOptions builtDefaults [ascii "lingx", ascii "-p", [], ascii "-c", []]).map
      (fun o => ((processOptions o Logs.STDERR).confFile,
        initNewCycleParse (processOptions o Logs.STDERR))) = .ok ([], none) := by
  decide

/-- With `lingx -c ""` the file is the prefix. -/
theorem getOptions_parseType_conf : ∃ o,
    getOptions builtDefaults [ascii "lingx", ascii "-c", []] = .ok o ∧
      (processOptions o Logs.STDERR).confFile ≠ [] := by
  have hno : ∀ ch ∈ ([] : Bytes), ch ∈ flagLetters := by simp
  have hv : Allowed .c [] := fun h => Opt.noConfusion h
  have hl : CommandLine [ascii "-c", []] [(.c, [])] := .detached hno hv .nil
  obtain ⟨hiff, hparse⟩ :=
    getOptions_parseType builtDefaults [ascii "lingx", ascii "-c", []]
  obtain ⟨o, ho⟩ := hiff.mpr ⟨_, hl⟩
  exact ⟨o, ho, (hparse _ o Logs.STDERR hl ho).1.2 (by decide)⟩

end Lingx.Main

import Lingx.Main.Options

/-! Clusters of options. The run of `Get_options_` is followed with what it leaves when it
stops at an error, and with the places of `argv` that it reads. An argument with several
letters, or with a value behind a letter, runs as the separate arguments do. -/

namespace Lingx.Main

open Library

/-- The value of an option is stored before it is checked. -/
def storeValue (o : Options) (opt : Opt) (value : Bytes) : Options × Option OptionError :=
  match opt with
  | .p => ({ o with optPrefix := value }, none)
  | .c => ({ o with optConfFile := value }, none)
  | .g => ({ o with optConfParam := value }, none)
  | .s =>
    let o := { o with optSignal := value }
    if signals.contains value then ({ o with processType := .signaller }, none)
    else (o, some (.invalidSignal value))

/-- The globals that an argument leaves, the error it stops with and whether it has moved
on to the next argument, with `++i`. -/
structure ArgumentRun where
  options : Options
  error : Option OptionError
  moved : Bool
  deriving DecidableEq, Repr

/-- The characters of an argument; the next one is null behind the last. -/
def runLetters (o : Options) : Bytes → Option Bytes → ArgumentRun
  | [], _ => ⟨o, none, false⟩
  | ch :: p, next =>
    match setFlag o ch with
    | some o => runLetters o p next
    | none =>
      match optOf ch with
      | none => ⟨o, some (.invalidLetter ch), false⟩
      | some opt =>
        if p ≠ [] then
          let (o, error) := storeValue o opt p
          ⟨o, error, false⟩
        else
          match next with
          | none => ⟨o, some (.requires opt), true⟩
          | some value =>
            let (o, error) := storeValue o opt value
            ⟨o, error, true⟩

def runArgument (o : Options) (arg : Bytes) (next : Option Bytes) : ArgumentRun :=
  match arg with
  | [] => ⟨o, some (.notAnOption arg), false⟩
  | ch :: p => if ch ≠ 0x2d then ⟨o, some (.notAnOption arg), false⟩ else runLetters o p next

/-- What `Get_options_` leaves and returns, `OK` if there is no error, with the places of
`argv` that it reads. -/
structure OptionsRun where
  options : Options
  error : Option OptionError
  reads : List ℕ
  deriving DecidableEq, Repr

/-- The places that an iteration reads. -/
def ArgumentRun.reads (r : ArgumentRun) (i : ℕ) : List ℕ := i :: if r.moved then [i + 1] else []

/-- The loop of `Get_options_`, over the arguments from place `i` on. -/
def optionsLoop (i : ℕ) (o : Options) : List Bytes → OptionsRun
  | [] => ⟨o, none, []⟩
  | [arg] =>
    let r := runArgument o arg none
    ⟨r.options, r.error, r.reads i⟩
  | arg :: value :: args =>
    let r := runArgument o arg (some value)
    if r.error.isSome then ⟨r.options, r.error, r.reads i⟩
    else
      let rest :=
        if r.moved then optionsLoop (i + 2) r.options args
        else optionsLoop (i + 1) r.options (value :: args)
      { rest with reads := r.reads i ++ rest.reads }

/-- The run of `Get_options_`. -/
def optionsRun (d : Defaults) (argv : List Bytes) : OptionsRun :=
  optionsLoop 1 (.init d) argv.tail

/-- The letters of an argument, one argument each, and a value behind a letter as one of
its own; also whether the last letter wants the next argument for its value. -/
def splitLetters : Bytes → List Bytes × Bool
  | [] => ([], false)
  | ch :: p =>
    if (optOf ch).isNone then
      let (args, wants) := splitLetters p
      ([0x2d, ch] :: args, wants)
    else if p = [] then ([[0x2d, ch]], true)
    else ([[0x2d, ch], p], false)

/-- The arguments with their clusters split; a value that is an argument stays one. -/
def splitArgs : List Bytes → List Bytes
  | [] => []
  | [arg] =>
    match arg with
    | 0x2d :: ch :: p => (splitLetters (ch :: p)).1
    | _ => [arg]
  | arg :: value :: args =>
    match arg with
    | 0x2d :: ch :: p =>
      let (split, wants) := splitLetters (ch :: p)
      if wants then split ++ value :: splitArgs args else split ++ splitArgs (value :: args)
    | _ => arg :: splitArgs (value :: args)

/-- `argv` with its clusters split; the name of the program stays. -/
def splitArgv : List Bytes → List Bytes
  | [] => []
  | name :: args => name :: splitArgs args

example : splitArgv [ascii "lingx", ascii "-tqpX", ascii "-s", ascii "-tq", ascii "-c"] =
    [ascii "lingx", ascii "-t", ascii "-q", ascii "-p", ascii "X", ascii "-s", ascii "-tq",
      ascii "-c"] := by decide

/-- The globals and the error, without the reads. -/
def OptionsRun.outcome (r : OptionsRun) : Options × Option OptionError := (r.options, r.error)

variable {o : Options} {arg p : Bytes} {next : Option Bytes}

theorem optionsLoop_cons (i : ℕ) (o : Options) (arg : Bytes) (args : List Bytes) :
    optionsLoop i o (arg :: args) =
      let r := runArgument o arg args.head?
      if r.error.isSome then ⟨r.options, r.error, r.reads i⟩
      else
        let rest := if r.moved then optionsLoop (i + 2) r.options args.tail
          else optionsLoop (i + 1) r.options args
        { rest with reads := r.reads i ++ rest.reads } := by
  cases args with
  | nil =>
    simp only [optionsLoop, List.head?_nil, List.tail_nil, ite_self]
    split_ifs with herror
    · rfl
    · rw [Option.not_isSome_iff_eq_none] at herror
      rw [herror, List.append_nil]
  | cons value args => rfl

theorem length_tail_lt_cons (arg : Bytes) (args : List Bytes) :
    args.tail.length < (arg :: args).length := by
  rw [List.length_tail, List.length_cons]
  omega

/-- What is left does not depend on the place of the arguments. -/
theorem optionsLoop_outcome (i j : ℕ) (o : Options) (args : List Bytes) :
    (optionsLoop i o args).outcome = (optionsLoop j o args).outcome := by
  induction hlen : args.length using Nat.strong_induction_on generalizing i j o args with
  | _ n ih =>
    cases args with
    | nil => rfl
    | cons arg args =>
      rw [optionsLoop_cons, optionsLoop_cons]
      simp only
      split_ifs
      · rfl
      · exact ih _ (hlen ▸ length_tail_lt_cons arg args) _ _ _ _ rfl
      · exact ih _ (hlen ▸ Nat.lt_succ_self _) _ _ _ _ rfl

/-- The globals and the error that a list of arguments leaves. -/
def leaves (o : Options) (args : List Bytes) : Options × Option OptionError :=
  (optionsLoop 0 o args).outcome

theorem leaves_cons (o : Options) (arg : Bytes) (args : List Bytes) :
    leaves o (arg :: args) =
      let r := runArgument o arg args.head?
      if r.error.isSome then (r.options, r.error)
      else if r.moved then leaves r.options args.tail else leaves r.options args := by
  rw [leaves, optionsLoop_cons]
  simp only
  split_ifs
  · rfl
  · exact optionsLoop_outcome _ _ _ _
  · exact optionsLoop_outcome _ _ _ _

theorem optOf_of_setFlag {o' : Options} {ch : Byte} (h : setFlag o ch = some o') :
    optOf ch = none := by
  cases hopt : optOf ch with
  | none => rfl
  | some opt =>
    rw [letter_of_optOf hopt, setFlag_letter] at h
    cases h

theorem runArgument_dash : runArgument o (0x2d :: p) next = runLetters o p next := rfl

theorem splitLetters_of_none {ch : Byte} (h : optOf ch = none) :
    splitLetters (ch :: p) = ([0x2d, ch] :: (splitLetters p).1, (splitLetters p).2) := by
  rw [splitLetters, h]
  rfl

/-- The separate arguments of a cluster leave what its letters leave, and go on with the
same arguments. -/
theorem leaves_splitLetters (o : Options) (p : Bytes) (rest : List Bytes) :
    leaves o ((splitLetters p).1 ++ rest) =
      let r := runLetters o p rest.head?
      if r.error.isSome then (r.options, r.error)
      else if r.moved then leaves r.options rest.tail else leaves r.options rest := by
  induction p generalizing o with
  | nil => rfl
  | cons ch p ih =>
    cases hflag : setFlag o ch with
    | some o' =>
      have hone : ∀ next, runLetters o [ch] next = ⟨o', none, false⟩ := fun next => by
        rw [runLetters, hflag]
        rfl
      rw [splitLetters_of_none (optOf_of_setFlag hflag), List.cons_append, leaves_cons,
        runArgument_dash, hone, runLetters, hflag]
      exact ih o'
    | none =>
      cases hopt : optOf ch with
      | none =>
        rw [splitLetters_of_none hopt, List.cons_append, leaves_cons, runArgument_dash, runLetters,
          runLetters, hflag, hopt]
        rfl
      | some opt =>
        by_cases hp : p = []
        · subst hp
          rw [splitLetters, hopt]
          exact leaves_cons o [0x2d, ch] rest
        · rw [splitLetters, hopt, if_neg (by simp), if_neg hp]
          refine (leaves_cons o [0x2d, ch] (p :: rest)).trans ?_
          rw [runArgument_dash, runLetters, runLetters, hflag, hopt]
          simp [hp]

/-- Without a last letter that wants the next argument nothing is read of it. -/
theorem runLetters_of_not_wants (h : (splitLetters p).2 = false) (o : Options)
    (next next' : Option Bytes) :
    runLetters o p next = runLetters o p next' ∧ (runLetters o p next).moved = false := by
  induction p generalizing o with
  | nil => exact ⟨rfl, rfl⟩
  | cons ch p ih =>
    cases hflag : setFlag o ch with
    | some o' =>
      rw [splitLetters_of_none (optOf_of_setFlag hflag)] at h
      rw [runLetters, runLetters, hflag]
      exact ih h o'
    | none =>
      rw [runLetters, runLetters, hflag]
      cases hopt : optOf ch with
      | none => exact ⟨rfl, rfl⟩
      | some opt =>
        have hp : p ≠ [] := by
          rintro rfl
          rw [splitLetters, hopt] at h
          cases h
        simp [hp]

theorem moved_of_wants (h : (splitLetters p).2 = true)
    (herror : (runLetters o p next).error = none) : (runLetters o p next).moved = true := by
  induction p generalizing o with
  | nil => cases h
  | cons ch p ih =>
    rw [runLetters] at herror ⊢
    cases hflag : setFlag o ch with
    | some o' =>
      rw [splitLetters_of_none (optOf_of_setFlag hflag)] at h
      rw [hflag] at herror
      exact ih h herror
    | none =>
      rw [hflag] at herror
      cases hopt : optOf ch with
      | none =>
        rw [hopt] at herror
        cases herror
      | some opt =>
        have hp : p = [] := by
          by_contra hp
          rw [splitLetters, hopt, if_neg (by simp), if_neg hp] at h
          cases h
        subst hp
        cases next <;> rfl

theorem splitArgs_cluster (ch : Byte) (p : Bytes) (args : List Bytes) :
    splitArgs ((0x2d :: ch :: p) :: args) = (splitLetters (ch :: p)).1 ++
      if (splitLetters (ch :: p)).2 then args.head?.toList ++ splitArgs args.tail
      else splitArgs args := by
  cases args with
  | nil => simp [splitArgs]
  | cons value args =>
    simp only [splitArgs, List.head?_cons, Option.toList_some, List.singleton_append,
      List.tail_cons]
    split_ifs <;> rfl

theorem splitArgs_other (args : List Bytes) (h : ∀ ch p, arg ≠ 0x2d :: ch :: p) :
    splitArgs (arg :: args) = arg :: splitArgs args := by
  cases args with
  | nil =>
    rw [splitArgs.eq_3 _ h]
    rfl
  | cons value args =>
    rw [splitArgs]
    exact h

theorem runArgument_other (h : ∀ ch p, arg ≠ 0x2d :: ch :: p) (o : Options)
    (next next' : Option Bytes) :
    runArgument o arg next = runArgument o arg next' ∧
      (runArgument o arg next).moved = false := by
  match arg with
  | [] => exact ⟨rfl, rfl⟩
  | [ch] =>
    rw [runArgument, runArgument]
    split_ifs <;> exact ⟨rfl, rfl⟩
  | ch :: ch' :: p =>
    have hch : ch ≠ 0x2d := fun hch => h ch' p (by rw [hch])
    rw [runArgument, runArgument, if_pos hch, if_pos hch]
    exact ⟨rfl, rfl⟩

theorem leaves_splitArgs (o : Options) (args : List Bytes) :
    leaves o (splitArgs args) = leaves o args := by
  induction hlen : args.length using Nat.strong_induction_on generalizing o args with
  | _ n ih =>
    cases args with
    | nil => rfl
    | cons arg args =>
      have hargs (o : Options) : leaves o (splitArgs args) = leaves o args :=
        ih _ (hlen ▸ Nat.lt_succ_self _) o args rfl
      have htail (o : Options) : leaves o (splitArgs args.tail) = leaves o args.tail :=
        ih _ (hlen ▸ length_tail_lt_cons arg args) o args.tail rfl
      by_cases hcluster : ∀ ch p, arg ≠ 0x2d :: ch :: p
      · obtain ⟨hrun, hmoved⟩ := runArgument_other hcluster o args.head? (splitArgs args).head?
        rw [splitArgs_other args hcluster, leaves_cons, leaves_cons, ← hrun]
        simp only [hmoved, Bool.false_eq_true, if_false, hargs]
      · push Not at hcluster
        obtain ⟨ch, p, rfl⟩ := hcluster
        rw [splitArgs_cluster, leaves_splitLetters, leaves_cons, runArgument_dash]
        cases hwants : (splitLetters (ch :: p)).2 with
        | false =>
          obtain ⟨hrun, hmoved⟩ :=
            runLetters_of_not_wants hwants o args.head? (splitArgs args).head?
          simp only [Bool.false_eq_true, if_false, ← hrun, hmoved, hargs]
        | true =>
          cases args with
          | nil => rfl
          | cons value args =>
            show (let r := runLetters o (ch :: p) (some value)
              if r.error.isSome then (r.options, r.error)
              else if r.moved then leaves r.options (splitArgs args)
              else leaves r.options (value :: splitArgs args)) =
              let r := runLetters o (ch :: p) (some value)
              if r.error.isSome then (r.options, r.error)
              else if r.moved then leaves r.options args else leaves r.options (value :: args)
            by_cases herror : (runLetters o (ch :: p) (some value)).error.isSome
            · simp only [herror, if_true]
            · have hmoved := moved_of_wants hwants (Option.not_isSome_iff_eq_none.mp herror)
              simp only [herror, Bool.false_eq_true, if_false, hmoved, if_true]
              exact htail _

theorem optionsLoop_reads (i : ℕ) (o : Options) (args : List Bytes) :
    ∀ k ∈ (optionsLoop i o args).reads, k ≤ i + args.length := by
  induction hlen : args.length using Nat.strong_induction_on generalizing i o args with
  | _ n ih =>
    subst hlen
    cases args with
    | nil => exact nofun
    | cons arg args =>
      have hhere (r : ArgumentRun) : ∀ k ∈ r.reads i, k ≤ i + (arg :: args).length := by
        intro k hk
        rw [ArgumentRun.reads, List.mem_cons] at hk
        rcases hk with rfl | hk
        · omega
        · split_ifs at hk
          · rw [List.mem_singleton.mp hk, List.length_cons]
            omega
          · cases hk
      rw [optionsLoop_cons]
      simp only
      split_ifs with herror hmoved
      · exact hhere _
      · intro k hk
        rcases List.mem_append.mp hk with hk | hk
        · exact hhere _ k hk
        · cases args with
          | nil => cases hk
          | cons value args =>
            have hle := ih _ (length_tail_lt_cons arg (value :: args)) _ _ args rfl k hk
            rw [List.tail_cons] at hle
            rw [List.length_cons, List.length_cons]
            omega
      · intro k hk
        rcases List.mem_append.mp hk with hk | hk
        · exact hhere _ k hk
        · have hle := ih args.length (by simp) _ _ args rfl k hk
          rw [List.length_cons]
          omega

/-- What a run leaves, unless it stops at an error. -/
def result {α : Type} (a : α) : Option OptionError → Except OptionError α
  | none => .ok a
  | some e => .error e

theorem setValue_eq (o : Options) (opt : Opt) (value : Bytes) :
    setValue o opt value = result (storeValue o opt value).1 (storeValue o opt value).2 := by
  cases opt with
  | p => rfl
  | c => rfl
  | g => rfl
  | s =>
    simp only [setValue, storeValue, List.contains_iff_mem]
    split_ifs <;> rfl

theorem readLetters_eq (o : Options) (p : Bytes) (next : Option Bytes) :
    readLetters o p next =
      let r := runLetters o p next
      result (r.options, r.moved) r.error := by
  induction p generalizing o with
  | nil => rfl
  | cons ch p ih =>
    rw [readLetters, runLetters]
    cases setFlag o ch with
    | some o' => exact ih o'
    | none =>
      cases optOf ch with
      | none => rfl
      | some opt =>
        by_cases hp : p = []
        · cases next with
          | none => simp [hp, result]
          | some value =>
            simp only [hp, ne_eq, not_true_eq_false, if_false, setValue_eq]
            cases (storeValue o opt value).2 <;> rfl
        · simp only [ne_eq, hp, not_false_eq_true, if_true, setValue_eq]
          cases (storeValue o opt p).2 <;> rfl

theorem readArgument_eq (o : Options) (arg : Bytes) (next : Option Bytes) :
    readArgument o arg next =
      let r := runArgument o arg next
      result (r.options, r.moved) r.error := by
  cases arg with
  | nil => rfl
  | cons ch p =>
    rw [readArgument, runArgument]
    split_ifs
    · rfl
    · exact readLetters_eq o p next

theorem getOptionsLoop_eq (i : ℕ) (o : Options) (args : List Bytes) :
    getOptionsLoop o args =
      let r := optionsLoop i o args
      result r.options r.error := by
  induction o, args using getOptionsLoop.induct generalizing i with
  | case1 o => rfl
  | case2 o arg =>
    rw [getOptionsLoop, readArgument_eq, optionsLoop]
    generalize runArgument o arg none = r
    obtain ⟨o', error, moved⟩ := r
    cases error <;> rfl
  | case3 o arg value args ih₁ ih₂ =>
    rw [getOptionsLoop, readArgument_eq, optionsLoop]
    generalize runArgument o arg (some value) = r
    obtain ⟨o', error, moved⟩ := r
    cases error with
    | some e => rfl
    | none =>
      cases moved with
      | true => exact ih₁ o' (i + 2)
      | false => exact ih₂ o' (i + 1)

theorem getOptions_eq (d : Defaults) (argv : List Bytes) :
    getOptions d argv = result (optionsRun d argv).options (optionsRun d argv).error :=
  getOptionsLoop_eq 1 (.init d) argv.tail

/-- Clusters of options mean the same as separate options: `Get_options_` leaves the same
globals and returns the same code, with the same message, on `argv` and on its split
arguments, and reads neither beyond its null. -/
theorem optionsRun_split (d : Defaults) (argv : List Bytes) :
    (optionsRun d (splitArgv argv)).options = (optionsRun d argv).options ∧
    (optionsRun d (splitArgv argv)).error = (optionsRun d argv).error ∧
    (∀ k ∈ (optionsRun d argv).reads, k ≤ argv.length) ∧
    ∀ k ∈ (optionsRun d (splitArgv argv)).reads, k ≤ (splitArgv argv).length := by
  have hreads (argv : List Bytes) : ∀ k ∈ (optionsRun d argv).reads, k ≤ argv.length := by
    cases argv with
    | nil => exact nofun
    | cons name args =>
      intro k hk
      have hle := optionsLoop_reads 1 (.init d) args k hk
      rw [List.length_cons]
      omega
  have houtcome : (optionsRun d (splitArgv argv)).outcome = (optionsRun d argv).outcome := by
    cases argv with
    | nil => rfl
    | cons name args =>
      calc (optionsLoop 1 (.init d) (splitArgs args)).outcome
          = leaves (.init d) (splitArgs args) := optionsLoop_outcome _ _ _ _
        _ = leaves (.init d) args := leaves_splitArgs _ _
        _ = (optionsLoop 1 (.init d) args).outcome := optionsLoop_outcome _ _ _ _
  obtain ⟨hoptions, herror⟩ := Prod.mk.inj houtcome
  exact ⟨hoptions, herror, hreads argv, hreads _⟩

end Lingx.Main

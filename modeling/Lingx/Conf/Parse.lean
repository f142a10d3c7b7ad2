import Lingx.Conf.File

/-! `Conf::parse` and `Conf::handle_`. The setters of the commands are code of the modules.
A setter is given as what it does: it returns, or it calls `parse("")` on a copy of the
`Conf` and goes on with what that returns. The copies share the configuration file. A
run records the results of `read_token_`, the calls of setters and the messages, each
with the depth of the `parse` that it belongs to. -/

namespace Lingx.Conf

def CONF_NOARGS : ℕ := 0x00000001
def CONF_TAKE1 : ℕ := 0x00000002
def CONF_TAKE2 : ℕ := 0x00000004
def CONF_TAKE3 : ℕ := 0x00000008
def CONF_TAKE4 : ℕ := 0x00000010
def CONF_TAKE5 : ℕ := 0x00000020
def CONF_TAKE6 : ℕ := 0x00000040
def CONF_TAKE7 : ℕ := 0x00000080
def CONF_BLOCK : ℕ := 0x00000100
def CONF_FLAG : ℕ := 0x00000200
def CONF_ANY : ℕ := 0x00000400
def CONF_1MORE : ℕ := 0x00000800
def CONF_2MORE : ℕ := 0x00001000
def MAIN_CONF : ℕ := 0x01000000

def EVENT_CONF : ℕ := 0x02000000

def CONF_MAX_ARGS : ℕ := 8

def CORE_MODULE : ℕ := 0x45524f43
def EVENT_MODULE : ℕ := 0x544e5645

/-- `Argument_number_`. -/
def argumentNumber : List ℕ :=
  [CONF_NOARGS, CONF_TAKE1, CONF_TAKE2, CONF_TAKE3, CONF_TAKE4, CONF_TAKE5, CONF_TAKE6, CONF_TAKE7]

/-- What `parse` and a setter return: `CONF_OK`, `CONF_ERROR` or a text. -/
inductive Rv where
  | ok
  | error
  | text (msg : Bytes)
  deriving DecidableEq, Repr

/-- The members of `Conf` that a setter changes in its copy. -/
structure Scope where
  ctx : Option ℕ
  moduleType : ℕ
  cmdType : ℕ
  deriving DecidableEq, Repr

/-- What a setter is called with; the place of its configuration is a pointer to a context
and an index, if there is a context. -/
structure Call where
  args : List Bytes
  scope : Scope
  conf : Option (ℕ × ℕ)
  deriving DecidableEq, Repr

/-- A setter: a return with the state of the program, or a nested `parse("")` in a scope. -/
inductive Setter (σ : Type) where
  | done (rv : Rv) (st : σ)
  | parse (scope : Scope) (st : σ) (k : Rv → σ → Setter σ)

structure Command (σ : Type) where
  name : Bytes
  type : ℕ
  conf : ℕ
  set : Call → σ → Setter σ

def Command.isBlock {σ : Type} (c : Command σ) : Bool := c.type &&& CONF_BLOCK ≠ 0

structure Module (σ : Type) where
  type : ℕ
  index : ℕ
  ctxIndex : σ → ℕ
  commands : List (Command σ)

/-- What a run does that can be seen. -/
inductive Obs where
  | token (depth : ℕ) (t : Token)
  | call (depth : ℕ) (block : Bool) (args : List Bytes)
  | message (depth : ℕ) (e : ConfError)
  deriving DecidableEq, Repr

/-- The state of a run: the configuration file that the copies share, the state of the
program, and what has been seen. -/
structure Run (σ : Type) where
  cf : ConfFile
  st : σ
  trace : List Obs

variable {σ : Type}

def Run.see (r : Run σ) (o : Obs) : Run σ := { r with trace := r.trace ++ [o] }

/-- A setter runs with a meaning for its calls of `parse("")`. -/
def Setter.run (parse : Scope → Run σ → Option (Rv × Run σ)) : Setter σ → Run σ →
    Option (Rv × Run σ)
  | .done rv st, r => some (rv, { r with st := st })
  | .parse scope st k, r =>
    match parse scope { r with st := st } with
    | none => none
    | some (rv, r) => (k rv r.st).run parse r

/-- The loops of `handle_`, which look for the command with a name in a scope. -/
def findCommand (scope : Scope) (name : Bytes) : Bool → List (Module σ × Command σ) →
    Except ConfError (Module σ × Command σ)
  | found, [] => .error (if found then .notAllowedHere name else .unknownDirective name)
  | found, (mod, cmd) :: rest =>
    if name ≠ cmd.name then findCommand scope name found rest
    else if mod.type ≠ scope.moduleType then findCommand scope name true rest
    else if cmd.type &&& scope.cmdType = 0 then findCommand scope name true rest
    else .ok (mod, cmd)

def allCommands (modules : List (Module σ)) : List (Module σ × Command σ) :=
  modules.flatMap fun mod => mod.commands.map fun cmd => (mod, cmd)

/-- The number of arguments is right for the type of a command. -/
def argumentsOk (type n : ℕ) : Bool :=
  if type &&& CONF_ANY ≠ 0 then true
  else if type &&& CONF_FLAG ≠ 0 then n = 2
  else if type &&& CONF_1MORE ≠ 0 then 2 ≤ n
  else if type &&& CONF_2MORE ≠ 0 then 3 ≤ n
  else if CONF_MAX_ARGS < n then false
  else type &&& argumentNumber.getD (n - 1) 0 ≠ 0

/-- The checks of a command that has been found. -/
def checkCommand (cmd : Command σ) (last : Rc) (args : List Bytes) (name : Bytes) :
    Option ConfError :=
  if ¬ cmd.isBlock ∧ last = .blockStart then some (.notTerminated name)
  else if cmd.isBlock ∧ last ≠ .blockStart then some (.noOpening name)
  else if ¬ argumentsOk cmd.type args.length then some (.invalidNumberOfArguments name)
  else none

/-- The place of the configuration that a command is for. -/
def confSlot (mod : Module σ) (cmd : Command σ) (scope : Scope) (st : σ) : Option (ℕ × ℕ) :=
  if cmd.type &&& MAIN_CONF ≠ 0 then scope.ctx.map fun ctx => (ctx, mod.index)
  else scope.ctx.map fun ctx => (ctx + cmd.conf, mod.ctxIndex st)

/-- `Conf::handle_`, with a meaning for the nested calls of `parse("")`. -/
def handle (modules : List (Module σ)) (parse : Scope → Run σ → Option (Rv × Run σ))
    (scope : Scope) (depth : ℕ) (last : Rc) (args : List Bytes) (r : Run σ) :
    Option (Rv × Run σ) :=
  let name := args.headD []
  match findCommand scope name false (allCommands modules) with
  | .error e => some (.error, r.see (.message depth e))
  | .ok (mod, cmd) =>
    match checkCommand cmd last args name with
    | some e => some (.error, r.see (.message depth e))
    | none =>
      match (cmd.set ⟨args, scope, confSlot mod cmd scope r.st⟩ r.st).run parse
        (r.see (.call depth cmd.isBlock args)) with
      | none => none
      | some (.ok, r) => some (.ok, r)
      | some (.error, r) => some (.error, r)
      | some (.text msg, r) => some (.error, r.see (.message depth (.directive name msg)))

/-- The `type` of a call of `parse`. -/
inductive Kind where
  | file
  | block
  | param
  deriving DecidableEq, Repr

/-- The `type` of `parse("")`. -/
def Kind.nested (cf : ConfFile) : Kind := if cf.file.fd ≠ -1 then .block else .param

/-- The loop of `Conf::parse`, for at most `k` tokens. -/
def parseLoop (modules : List (Module σ)) : ℕ → Kind → ℕ → Scope → Run σ → Option (Rv × Run σ)
  | 0, _, _, _, _ => none
  | k + 1, kind, depth, scope, r =>
    match readToken r.cf with
    | none => none
    | some (t, cf) =>
      let r := { r with cf := cf }.see (.token depth t)
      match t.rc with
      | .error _ => some (.error, r)
      | .blockDone =>
        if kind ≠ .block then some (.error, r.see (.message depth .unexpectedBrace))
        else some (.ok, r)
      | .fileDone =>
        if kind = .block then some (.error, r.see (.message depth .expectingBrace))
        else some (.ok, r)
      | rc =>
        if rc = .blockStart ∧ kind = .param then
          some (.error, r.see (.message depth .blockInParam))
        else
          match handle modules
            (fun scope r => parseLoop modules k (.nested r.cf) (depth + 1) scope r)
            scope depth rc t.args r with
          | none => none
          | some (.ok, r) => parseLoop modules k kind depth scope r
          | some (_, r) => some (.error, r)

/-- A call of `parse` on a configuration file; each token but the last takes a byte. -/
def parse (modules : List (Module σ)) (kind : Kind) (scope : Scope) (r : Run σ) :
    Option (Rv × Run σ) :=
  parseLoop modules (r.cf.remaining + 1) kind 0 scope r

/-- What the system calls on a file return: the descriptor, the size from `fstat()`, and
the outcomes of `pread()`. -/
structure Opened where
  fd : ℤ
  stat : Option ℕ
  pread : ℕ → ℕ → Option Bytes

/-- `Conf::parse` with the name of a file, which is not empty. -/
def parseFile (modules : List (Module σ)) (o : Opened) (filename : Bytes) (scope : Scope) (st : σ) :
    Option (Rv × Run σ) :=
  let r : Run σ := ⟨.opened o.fd filename (o.stat.getD 0) o.pread, st, []⟩
  if o.fd = -1 then some (.error, r.see (.message 0 (.openFailed filename)))
  else if o.stat = none then some (.error, r.see (.message 0 (.statFailed filename)))
  else parse modules .file scope r

/-- `Conf::param`. -/
def param (modules : List (Module σ)) (text : Bytes) (scope : Scope) (st : σ) :
    Option (Rv × Run σ) :=
  let r : Run σ := ⟨.param text, st, []⟩
  if text = [] then some (.ok, r)
  else parse modules .param scope r

end Lingx.Conf

import Lingx.Conf.Dispatch
import Lingx.Conf.Ends
import Lingx.Conf.Located

/-! What a parse reports. A message of `Conf` ends the parse, and each `parse` above it: there
is one message in a run that fails, it is the last thing that the run does, and it names the
place of what it is about. Where a run fails without a message, a setter has returned
`CONF_ERROR`. -/

namespace Lingx.Conf

open Strings

variable {σ : Type} {modules : List (Module σ)} {src : Source}

/-- The error of a result of `read_token_`. -/
def Rc.failure : Rc → Option ConfError
  | .error e => some e
  | _ => none

theorem Rc.ok_or_blockStart {rc : Rc} (herror : ∀ e, rc ≠ .error e) (hblock : rc ≠ .blockDone)
    (hfile : rc ≠ .fileDone) : rc = .ok ∨ rc = .blockStart := by
  cases rc with
  | ok => exact .inl rfl
  | blockStart => exact .inr rfl
  | blockDone => exact absurd rfl hblock
  | fileDone => exact absurd rfl hfile
  | error e => exact absurd rfl (herror e)

/-- The error that is logged with what is seen. -/
def Obs.error : Obs → Option ConfError
  | .token _ t => t.rc.failure
  | .call _ _ _ => none
  | .message _ e => some e

/-- The errors that `Conf` has logged in a run. -/
def Run.errors (r : Run σ) : List ConfError := r.trace.filterMap Obs.error

/-- A setter that returns `CONF_ERROR` where its parse does. -/
def Setter.HandsOn : Setter σ → Prop
  | .done _ _ => True
  | .parse _ _ k => (∀ st, (k .ok st).HandsOn) ∧ ∀ st, ∃ st', k .error st = .done .error st'

/-- The command tables: errors of a nested parse are handed on, and only the setters of blocks
parse. -/
def HandingOn (modules : List (Module σ)) : Prop :=
  ∀ mod ∈ modules, ∀ cmd ∈ mod.commands, ∀ call st, (cmd.set call st).HandsOn ∧
    (cmd.isBlock = false → ∃ rv st', cmd.set call st = .done rv st')

/-- A setter that returns `CONF_ERROR` though none of its parses does. -/
inductive Setter.Refuses (parse : Scope → Run σ → Option (Rv × Run σ)) : Setter σ → Run σ → Prop
  | here {st : σ} {r : Run σ} : Refuses parse (.done .error st) r
  | later {scope : Scope} {st : σ} {k : Rv → σ → Setter σ} {r r₁ : Run σ} :
      parse scope { r with st := st } = some (.ok, r₁) → Refuses parse (k .ok r₁.st) r₁ →
      Refuses parse (.parse scope st k) r

variable (modules) in
/-- A call of `handle_` whose setter refuses it. -/
def HandleCall.Refused (c : HandleCall σ) : Prop :=
  ∃ mod cmd k, c.Sets modules mod cmd ∧
    (c.setter mod cmd).Refuses (nestedParse modules k c.depth) (c.setterRun cmd)

/-- The bytes behind which a setter runs or returns. -/
def closers : List Byte := [semicolon, lbrace, rbrace]

/-- A part of a run has logged one error, as the last thing it did, at the place of that. -/
structure Logged (src : Source) (r r' : Run σ) (e : ConfError) (p : ℕ) : Prop where
  errors : r'.errors = r.errors ++ [e]
  last : r'.trace.getLast?.bind Obs.error = some e
  located : Located src e r'.cf p

variable (modules) in
/-- A part of a run has failed: with one error, or with none behind a setter that refuses. -/
def Failed (H : HandleCall σ → Prop) (src : Source) (r r' : Run σ) : Prop :=
  (∃ e p, Logged src r r' e p) ∨ r'.errors = r.errors ∧
    ∃ c, H c ∧ c.Refused modules ∧ Behind src c.run.cf [semicolon, lbrace]

section Parts
variable {H H' : HandleCall σ → Prop} {r r₁ r' : Run σ} {e : ConfError} {p : ℕ}

theorem Run.errors_see (r : Run σ) (o : Obs) : (r.see o).errors = r.errors ++ o.error.toList := by
  cases ho : o.error <;> simp [Run.errors, Run.see, ho]

theorem Run.errors_token (r : Run σ) (cf : ConfFile) (d : ℕ) {t : Token}
    (ht : t.rc.failure = none) : ({ r with cf := cf }.see (.token d t)).errors = r.errors := by
  rw [Run.errors_see, Obs.error, ht]
  exact List.append_nil _

theorem Run.last_see (r : Run σ) (o : Obs) :
    (r.see o).trace.getLast?.bind Obs.error = o.error := by
  simp [Run.see]

theorem Logged.congr {r₂ : Run σ} (h : Logged src r₁ r₂ e p) (htrace : r₁.trace = r.trace)
    (hcf : r'.cf = r₂.cf) (htrace' : r'.trace = r₂.trace) : Logged src r r' e p where
  errors := by
    have herr := h.errors
    rw [Run.errors, Run.errors, htrace] at herr
    rw [Run.errors, Run.errors, htrace', herr]
  last := htrace' ▸ h.last
  located := hcf ▸ h.located

theorem Logged.of_errors (h : Logged src r₁ r' e p) (herr : r₁.errors = r.errors) :
    Logged src r r' e p :=
  ⟨herr ▸ h.errors, h.last, h.located⟩

theorem Failed.of_errors (h : Failed modules H src r₁ r') (herr : r₁.errors = r.errors) :
    Failed modules H src r r' := by
  rcases h with ⟨e, p, h⟩ | ⟨h, hc⟩
  · exact .inl ⟨e, p, h.of_errors herr⟩
  · exact .inr ⟨h.trans herr, hc⟩

theorem Failed.congr {r₂ : Run σ} (h : Failed modules H src r₁ r₂) (htrace : r₁.trace = r.trace)
    (hcf : r'.cf = r₂.cf) (htrace' : r'.trace = r₂.trace) : Failed modules H src r r' := by
  rcases h with ⟨e, p, h⟩ | ⟨herr, hc⟩
  · exact .inl ⟨e, p, h.congr htrace hcf htrace'⟩
  · refine .inr ⟨?_, hc⟩
    rw [Run.errors, Run.errors, htrace] at herr
    rw [Run.errors, Run.errors, htrace', herr]

theorem Failed.mono (h : Failed modules H src r r') (hH : ∀ c, H c → H' c) :
    Failed modules H' src r r' := by
  rcases h with h | ⟨h, c, hc, hrest⟩
  · exact .inl h
  · exact .inr ⟨h, c, hH c hc, hrest⟩

theorem Located.logged (h : Located src e r.cf p) (d : ℕ) :
    Logged src r (r.see (.message d e)) e p :=
  ⟨Run.errors_see r _, Run.last_see r _, h⟩

theorem Located.read {cf : ConfFile} (h : Located src e cf p) (d : ℕ) {t : Token}
    (ht : t.rc = .error e) : Logged src r ({ r with cf := cf }.see (.token d t)) e p where
  errors := by
    rw [Run.errors_see, Obs.error, ht]
    rfl
  last := by
    rw [Run.last_see, Obs.error, ht]
    rfl
  located := h

theorem Behind.failed (h : Behind src r.cf e.culprits) (d : ℕ) :
    Failed modules H src r (r.see (.message d e)) := by
  obtain ⟨p, hp⟩ := h.located
  exact .inl ⟨e, p, hp.logged d⟩

end Parts

section Handle
variable {H : HandleCall σ → Prop} {r r' : Run σ} {rv : Rv}

variable (modules) in
/-- A call of `parse` or of a setter goes on without an error behind a byte that ends a
directive or a block, or it fails. -/
def GoesOn (H : HandleCall σ → Prop) (src : Source) (r r' : Run σ) (rv : Rv) : Prop :=
  rv = .ok ∧ r'.errors = r.errors ∧ Behind src r'.cf closers ∨
    rv = .error ∧ Failed modules H src r r'

/-- A setter that hands errors on returns without one, or fails with that of its parse. -/
theorem Setter.run_goes {parse : Scope → Run σ → Option (Rv × Run σ)} {s : Setter σ}
    (hs : s.HandsOn) (hb : Behind src r.cf closers)
    (hparse : ∀ scope r₁ rv₁ r₂, s.Parses parse r scope r₁ → Behind src r₁.cf closers →
      parse scope r₁ = some (rv₁, r₂) → GoesOn modules H src r₁ r₂ rv₁)
    (h : s.run parse r = some (rv, r')) :
    (r'.errors = r.errors ∧ Behind src r'.cf closers ∧ (rv = .error → s.Refuses parse r)) ∨
      rv = .error ∧ Failed modules H src r r' := by
  induction s generalizing r with
  | done rv₀ st =>
    cases h
    refine .inl ⟨rfl, hb, ?_⟩
    rintro rfl
    exact .here
  | parse scope st k ih =>
    rw [Setter.run] at h
    split at h
    · cases h
    · rename_i rv₁ r₁ hp
      rcases hparse scope _ rv₁ r₁ .here hb hp with ⟨rfl, herr, hb₁⟩ | ⟨rfl, hfail⟩
      · have hnext : ∀ scope' r₂ rv₂ r₃, (k .ok r₁.st).Parses parse r₁ scope' r₂ →
            Behind src r₂.cf closers → parse scope' r₂ = some (rv₂, r₃) →
            GoesOn modules H src r₂ r₃ rv₂ := fun scope' r₂ rv₂ r₃ hps =>
          hparse scope' r₂ rv₂ r₃ (.later hp hps)
        rcases ih .ok r₁.st (hs.1 r₁.st) hb₁ hnext h with
          ⟨herr', hb', hrefuses⟩ | ⟨rfl, hfail⟩
        · exact .inl ⟨herr'.trans herr, hb', fun hrv => .later hp (hrefuses hrv)⟩
        · exact .inr ⟨rfl, hfail.of_errors herr⟩
      · obtain ⟨st', hk⟩ := hs.2 r₁.st
        rw [hk] at h
        cases h
        exact .inr ⟨rfl, hfail.congr rfl rfl rfl⟩

theorem findCommand_culprits {scope : Scope} {name : Bytes} {found : Bool} {e : ConfError}
    {l : List (Module σ × Command σ)} (h : findCommand scope name found l = .error e) :
    e.culprits = [semicolon, lbrace] := by
  induction l generalizing found with
  | nil =>
    rw [findCommand] at h
    split_ifs at h <;> cases h <;> rfl
  | cons q l ih =>
    obtain ⟨mod, cmd⟩ := q
    rw [findCommand] at h
    split_ifs at h
    · exact ih h
    · exact ih h
    · exact ih h

theorem checkCommand_culprits {cmd : Command σ} {last : Rc} {args : List Bytes} {name : Bytes}
    {e : ConfError} (hlast : last = .ok ∨ last = .blockStart)
    (h : checkCommand cmd last args name = some e) : last.culprits ⊆ e.culprits := by
  rw [checkCommand] at h
  rcases hlast with rfl | rfl
  · rw [if_neg (by simp)] at h
    split_ifs at h <;> cases h
    · exact List.Subset.refl [semicolon]
    · exact List.subset_append_left [semicolon] [lbrace]
  · rw [if_neg (c := cmd.isBlock = true ∧ _) (by simp)] at h
    split_ifs at h <;> cases h
    · exact List.Subset.refl [lbrace]
    · exact List.subset_cons_self semicolon [lbrace]

theorem culprits_subset {last : Rc} (hlast : last = .ok ∨ last = .blockStart) :
    last.culprits ⊆ [semicolon, lbrace] := by
  rcases hlast with rfl | rfl <;> simp [Rc.culprits]

theorem HandleCall.Sets.blockStart (hm : HandingOn modules) {c : HandleCall σ} {mod : Module σ}
    {cmd : Command σ} (hsets : c.Sets modules mod cmd)
    {parse : Scope → Run σ → Option (Rv × Run σ)} {scope : Scope} {r₂ : Run σ}
    (hparses : (c.setter mod cmd).Parses parse (c.setterRun cmd) scope r₂) :
    c.last = .blockStart := by
  obtain ⟨hmod, hcmd⟩ := mem_allCommands.mp (findCommand_mem hsets.found)
  by_contra hne
  have hplain : cmd.isBlock = false := by
    rw [checkCommand_none hsets.checked]
    simpa using hne
  obtain ⟨rv₀, st₀, hset⟩ := (hm mod hmod cmd hcmd
    ⟨c.args, c.scope, confSlot mod cmd c.scope c.run.st⟩ c.run.st).2 hplain
  rw [HandleCall.setter, hset] at hparses
  cases hparses

theorem HandleCall.Sets.setter_goes (hm : HandingOn modules) {c : HandleCall σ} {k : ℕ}
    {mod : Module σ} {cmd : Command σ} (hsets : c.Sets modules mod cmd)
    (hb : Behind src c.run.cf [semicolon, lbrace])
    (hparse : ∀ scope r₁ rv₁ r₂,
      (c.setter mod cmd).Parses (nestedParse modules k c.depth) (c.setterRun cmd) scope r₁ →
      Behind src r₁.cf closers → nestedParse modules k c.depth scope r₁ = some (rv₁, r₂) →
      GoesOn modules H src r₁ r₂ rv₁)
    (h : (c.setter mod cmd).run (nestedParse modules k c.depth) (c.setterRun cmd) =
      some (rv, r')) :
    (r'.errors = c.run.errors ∧ Behind src r'.cf closers ∧ (rv = .error → c.Refused modules)) ∨
      rv = .error ∧ Failed modules H src c.run r' := by
  obtain ⟨hmod, hcmd⟩ := mem_allCommands.mp (findCommand_mem hsets.found)
  have hhands : (c.setter mod cmd).HandsOn := (hm mod hmod cmd hcmd _ _).1
  have hcall : (c.setterRun cmd).errors = c.run.errors := by
    rw [HandleCall.setterRun, Run.errors_see]
    exact List.append_nil _
  have hb' : Behind src (c.setterRun cmd).cf closers := hb.mono (by simp [closers])
  rcases Setter.run_goes hhands hb' hparse h with ⟨herr, hb₁, hrefuses⟩ | ⟨hrv, hfail⟩
  · exact .inl ⟨herr.trans hcall, hb₁, fun hrv => ⟨mod, cmd, k, hsets, hrefuses hrv⟩⟩
  · exact .inr ⟨hrv, hfail.of_errors hcall⟩

theorem handle_goes (hm : HandingOn modules) {c : HandleCall σ} {k : ℕ} (hc : H c)
    (hlast : c.last = .ok ∨ c.last = .blockStart) (hb : Behind src c.run.cf c.last.culprits)
    (hparse : ∀ mod cmd scope r₁ rv₁ r₂, c.last = .blockStart → c.Sets modules mod cmd →
      (c.setter mod cmd).Parses (nestedParse modules k c.depth) (c.setterRun cmd) scope r₁ →
      Behind src r₁.cf closers → nestedParse modules k c.depth scope r₁ = some (rv₁, r₂) →
      GoesOn modules H src r₁ r₂ rv₁)
    (h : handle modules (nestedParse modules k c.depth) c.scope c.depth c.last c.args c.run =
      some (rv, r')) : GoesOn modules H src c.run r' rv := by
  have hb₂ : Behind src c.run.cf [semicolon, lbrace] := hb.mono (culprits_subset hlast)
  simp only [handle] at h
  split at h
  · rename_i e hfind
    cases h
    rw [← findCommand_culprits hfind] at hb₂
    exact .inr ⟨rfl, hb₂.failed c.depth⟩
  · rename_i mod cmd hfind
    split at h
    · rename_i e hcheck
      cases h
      exact .inr ⟨rfl, (hb.mono (checkCommand_culprits hlast hcheck)).failed c.depth⟩
    · rename_i hcheck
      have hsets : c.Sets modules mod cmd := ⟨hfind, hcheck⟩
      have hnested : ∀ scope r₁ rv₁ r₂,
          (c.setter mod cmd).Parses (nestedParse modules k c.depth) (c.setterRun cmd) scope r₁ →
          Behind src r₁.cf closers → nestedParse modules k c.depth scope r₁ = some (rv₁, r₂) →
          GoesOn modules H src r₁ r₂ rv₁ := fun scope r₁ rv₁ r₂ hparses =>
        hparse mod cmd scope r₁ rv₁ r₂ (hsets.blockStart hm hparses) hsets hparses
      split at h
      · cases h
      · rename_i r₁ hrun
        cases h
        rcases hsets.setter_goes hm hb₂ hnested hrun with ⟨herr, hb', -⟩ | ⟨hrv, -⟩
        · exact .inl ⟨rfl, herr, hb'⟩
        · cases hrv
      · rename_i r₁ hrun
        cases h
        rcases hsets.setter_goes hm hb₂ hnested hrun with ⟨herr, -, hrefused⟩ | ⟨-, hfail⟩
        · exact .inr ⟨rfl, .inr ⟨herr, c, hc, hrefused rfl, hb₂⟩⟩
        · exact .inr ⟨rfl, hfail⟩
      · rename_i msg r₁ hrun
        cases h
        rcases hsets.setter_goes hm hb₂ hnested hrun with ⟨herr, hb', -⟩ | ⟨hrv, -⟩
        · have hculprits : closers = (ConfError.directive (c.args.headD []) msg).culprits := rfl
          rw [hculprits] at hb'
          exact .inr ⟨rfl, (hb'.failed c.depth).of_errors herr⟩
        · cases hrv

end Handle

section Loop

variable {kind : Kind} {scope : Scope} {depth k : ℕ} {r r' : Run σ} {rv : Rv}

/-- The loop ends without an error, that of a block behind its end, or it fails. -/
theorem parseLoop_goes (hm : HandingOn modules) {p : ℕ} (hkind : kind ≠ .param → src.fd ≠ -1)
    (hp : Reached src r.cf p) (h : parseLoop modules k kind depth scope r = some (rv, r')) :
    rv = .ok ∧ r'.errors = r.errors ∧ (kind = .block → Behind src r'.cf [rbrace]) ∨
      rv = .error ∧ Failed modules (Handles modules k kind depth scope r) src r r' := by
  induction k generalizing kind depth scope r r' rv p with
  | zero => cases h
  | succ k ih =>
    rw [parseLoop] at h
    split at h
    · cases h
    rename_i t cf hread
    have herr (ht : t.rc.failure = none) := r.errors_token cf depth ht
    rcases readToken_reached hp hread with ⟨q, hq, hstops⟩ | ⟨e, q, hrc, hloc⟩
    · dsimp only at h
      split at h
      · -- `read_token_` has logged what it stops at
        rename_i e hrc
        cases h
        rw [hrc] at hstops
        obtain ⟨p', hloc⟩ := hstops.located hq
        exact .inr ⟨rfl, .inl ⟨e, p', hloc.read depth hrc⟩⟩
      · rename_i hrc
        rw [hrc] at hstops herr
        have hb : Behind src cf [rbrace] := hstops.behind hq (fun h => h)
        split_ifs at h with hblock <;> cases h
        · exact .inr ⟨rfl, (Behind.failed (e := .unexpectedBrace) hb depth).of_errors (herr rfl)⟩
        · exact .inl ⟨rfl, herr rfl, fun _ => hb⟩
      · rename_i hrc
        rw [hrc] at hstops herr
        obtain rfl := hstops.eq_length
        split_ifs at h with hblock <;> cases h
        · have hloc : Located src .expectingBrace cf src.content.length := hq.located trivial
          exact .inr ⟨rfl, .inl ⟨_, _, (hloc.logged (r := _) depth).of_errors (herr rfl)⟩⟩
        · exact .inl ⟨rfl, herr rfl, fun hk => absurd hk hblock⟩
      · -- the token of a directive goes to `handle_`
        rename_i herror hblockDone hfileDone
        have hrc := Rc.ok_or_blockStart herror hblockDone hfileDone
        have hb : Behind src cf t.rc.culprits :=
          hstops.behind hq (by rcases hrc with hrc | hrc <;> rw [hrc] <;> exact fun h => h)
        have hquiet := herr (by rcases hrc with hrc | hrc <;> rw [hrc] <;> rfl)
        split_ifs at h with hparam
        · cases h
          rw [hparam.1] at hb
          exact .inr ⟨rfl, (Behind.failed (e := .blockInParam) hb depth).of_errors hquiet⟩
        · have hgives : Gives kind depth scope r
              ⟨scope, depth, t.rc, t.args, { r with cf := cf }.see (.token depth t)⟩ :=
            .intro hread herror hblockDone hfileDone hparam
          have hhandle : ∀ rv₁ r₁,
              handle modules (nestedParse modules k depth) scope depth t.rc t.args
                ({ r with cf := cf }.see (.token depth t)) = some (rv₁, r₁) →
              GoesOn modules (Handles modules (k + 1) kind depth scope r) src
                ({ r with cf := cf }.see (.token depth t)) r₁ rv₁ := by
            intro rv₁ r₁ hrun
            refine handle_goes hm (Handles.here hgives) hrc hb ?_ hrun
            intro mod cmd scope' r₂ rv₂ r₃ hstart hsets hparses hb₂ hnested
            have hfd : src.fd ≠ -1 := hkind fun hk => hparam ⟨hstart, hk⟩
            have hblock : Kind.nested r₂.cf = .block := if_pos (hb₂.of.1 ▸ hfd)
            obtain ⟨q₂, ch, hq₂, -⟩ := hb₂
            rcases ih (fun _ => hfd) hq₂ hnested with ⟨hrv, herr₂, hend⟩ | ⟨hrv, hfail⟩
            · exact .inl ⟨hrv, herr₂, (hend hblock).mono (by simp [closers])⟩
            · exact .inr ⟨hrv, hfail.mono fun c hc => .nested hgives hsets hparses hc⟩
          split at h
          · cases h
          · rename_i r₁ hrun
            rcases hhandle _ _ hrun with ⟨-, herr₁, hb₁⟩ | ⟨hrv, -⟩
            · obtain ⟨q₁, ch, hq₁, -⟩ := hb₁
              rcases ih hkind hq₁ h with ⟨hrv, herr', hend⟩ | ⟨hrv, hfail⟩
              · exact .inl ⟨hrv, herr'.trans (herr₁.trans hquiet), hend⟩
              · exact .inr ⟨hrv, (hfail.of_errors (herr₁.trans hquiet)).mono fun c hc =>
                  .next hgives hrun hc⟩
            · cases hrv
          · rename_i rv₁ r₁ hok hrun
            cases h
            rcases hhandle _ _ hrun with ⟨hrv, -⟩ | ⟨-, hfail⟩
            · exact absurd hrv hok
            · exact .inr ⟨rfl, hfail.of_errors hquiet⟩
    · -- a parameter is too long
      rw [hrc] at h
      cases h
      exact .inr ⟨rfl, .inl ⟨e, q, hloc.read depth hrc⟩⟩

variable (modules) in
/-- How the parse of a text ends: without an error; with one, the last thing of the run, whose
message names the place that it is about; or with none, where a setter has refused a
directive, and messages of that setter name the place where the directive ends. -/
inductive Reported (kind : Kind) (scope : Scope) (src : Source) (r : Run σ) (rv : Rv)
    (r' : Run σ) : Prop
  | ok : rv = .ok → r'.errors = [] → Reported kind scope src r rv r'
  | logged {e : ConfError} {p : ℕ} : rv = .error → r'.errors = [e] →
      r'.trace.getLast?.bind Obs.error = some e →
      e.About src.content (src.content.length - r'.cf.remaining) p →
      (∀ errstr fmt, errstr.length = MAX_CONF_ERRSTR → logError errstr (some r'.cf) fmt =
        cstr (fmt.text.take (MAX_CONF_ERRSTR - 1)) ++ src.suffix p) →
      Reported kind scope src r rv r'
  | refused {c : HandleCall σ} {p : ℕ} {ch : Byte} : rv = .error → r'.errors = [] →
      Handles modules (r.cf.remaining + 1) kind 0 scope r c → c.Refused modules →
      src.content[p]? = some ch → ch ∈ [semicolon, lbrace] →
      src.content.length - c.run.cf.remaining = p + 1 →
      (∀ errstr fmt, errstr.length = MAX_CONF_ERRSTR → logError errstr (some c.run.cf) fmt =
        cstr (fmt.text.take (MAX_CONF_ERRSTR - 1)) ++ src.suffix p) →
      Reported kind scope src r rv r'

theorem Reported.errors_of_ok {r₀ : Run σ} (h : Reported modules kind scope src r₀ rv r)
    (hrv : rv = .ok) : r.errors = [] := by
  cases h with
  | ok _ herr => exact herr
  | logged herror => exact nomatch hrv.symm.trans herror
  | refused _ herr => exact herr

theorem Reported.length_errors {r₀ : Run σ} (h : Reported modules kind scope src r₀ rv r) :
    r.errors.length ≤ 1 := by
  cases h with
  | ok _ herr => simp [herr]
  | logged _ herr => simp [herr]
  | refused _ herr => simp [herr]

theorem parse_reported (hm : HandingOn modules) {st : σ} {cf : ConfFile}
    (hkind : kind ≠ .param → src.fd ≠ -1) (hp : Reached src cf 0)
    (h : parse modules kind scope ⟨cf, st, []⟩ = some (rv, r')) :
    Reported modules kind scope src ⟨cf, st, []⟩ rv r' := by
  rcases parseLoop_goes hm hkind hp h with ⟨hrv, herr, -⟩ | ⟨hrv, ⟨e, p, hlog⟩ | ⟨herr, c, hc,
    hrefused, hb⟩⟩
  · exact .ok hrv herr
  · exact .logged hrv hlog.errors hlog.last hlog.located.about fun errstr fmt hlen =>
      logError_of hlog.located.of hlog.located.line hlen fmt
  · obtain ⟨p, ch, hget, hmem, hread, hline⟩ := hb.line
    exact .refused hrv herr hc hrefused hget hmem hread fun errstr fmt hlen =>
      logError_of hb.of hline hlen fmt

theorem parseFile_reported (hm : HandingOn modules) {content : Bytes} {fd : ℤ} (hfd : fd ≠ -1)
    {pread : ℕ → ℕ → Option Bytes} (hread : Reads content pread) (filename : Bytes)
    (scope : Scope) (st : σ) : ∃ rv r,
      parseFile modules ⟨fd, some content.length, pread⟩ filename scope st = some (rv, r) ∧
      Reported modules .file scope ⟨content, fd, filename, 1⟩
        ⟨.opened fd filename content.length pread, st, []⟩ rv r := by
  obtain ⟨rv, r, hrun⟩ := parseFile_ends modules ⟨fd, some content.length, pread⟩ filename scope st
  refine ⟨rv, r, hrun, ?_⟩
  have hreached : Reached ⟨content, fd, filename, 1⟩ (.opened fd filename content.length pread) 0 :=
    ⟨⟨rfl, rfl⟩, by simp [Source.line, newlines, ConfFile.opened], 0, rfl,
      covers_opened fd filename hread⟩
  rw [parseFile, if_neg hfd, if_neg (by simp)] at hrun
  exact parse_reported hm (fun _ => hfd) hreached hrun

theorem param_reported (hm : HandingOn modules) (text : Bytes) (scope : Scope) (st : σ) :
    ∃ rv r, param modules text scope st = some (rv, r) ∧
      Reported modules .param scope ⟨text, -1, [], 0⟩ ⟨.param text, st, []⟩ rv r := by
  obtain ⟨rv, r, hrun⟩ := param_ends modules text scope st
  refine ⟨rv, r, hrun, ?_⟩
  rw [param] at hrun
  split_ifs at hrun
  · cases hrun
    exact .ok rfl rfl
  · have hreached : Reached ⟨text, -1, [], 0⟩ (.param text) 0 :=
      ⟨⟨rfl, rfl⟩, by simp [Source.line, newlines, ConfFile.param], 0, rfl, covers_param text⟩
    exact parse_reported hm (fun h => absurd rfl h) hreached hrun

end Loop

end Lingx.Conf

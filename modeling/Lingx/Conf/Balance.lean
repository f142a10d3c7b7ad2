import Lingx.Conf.Bounds
import Lingx.Conf.Parse

/-! Accepted files are well formed. The block structure is in the recursion of `parse`
through the setters: a run that returns `CONF_OK` has read a balanced sequence of tokens,
where each start of a block is followed by what the nested run reads, up to its end. -/

namespace Lingx.Conf

variable {σ : Type} {modules : List (Module σ)}

section Setters

/-- A setter that does not return `CONF_OK`. -/
def Setter.Fails : Setter σ → Prop
  | .done rv _ => rv ≠ .ok
  | .parse _ _ k => ∀ rv st, (k rv st).Fails

/-- A setter that returns `CONF_OK` only without a call of `parse`. -/
def Setter.Simple : Setter σ → Prop
  | .done _ _ => True
  | .parse _ _ k => ∀ rv st, (k rv st).Fails

/-- A setter that returns `CONF_OK` only after one `parse("")` that succeeds. -/
def Setter.AfterParse : Setter σ → Prop
  | .done rv _ => rv ≠ .ok
  | .parse _ _ k => (∀ st, (k .ok st).Simple) ∧ ∀ rv st, rv ≠ .ok → (k rv st).Fails

/-- The command tables: the setters of blocks succeed by parsing their block, the others
without parsing. -/
def WellBehaved (modules : List (Module σ)) : Prop :=
  ∀ mod ∈ modules, ∀ cmd ∈ mod.commands, ∀ call st,
    if cmd.isBlock then (cmd.set call st).AfterParse else (cmd.set call st).Simple

end Setters

/-- The directives that are read at a depth: each start of a block is handled by a block
command and closed by the end of the block one level down. Without `blocks` there are no
blocks. -/
inductive Directives (blocks : Bool) : ℕ → List Obs → Prop
  | nil {d : ℕ} : Directives blocks d []
  | simple {d : ℕ} {t : Token} {rest : List Obs} : t.rc = .ok → Directives blocks d rest →
      Directives blocks d (.token d t :: .call d false t.args :: rest)
  | block {d : ℕ} {t u : Token} {inner rest : List Obs} : blocks = true → t.rc = .blockStart →
      Directives blocks (d + 1) inner → u.rc = .blockDone → Directives blocks d rest →
      Directives blocks d
        (.token d t :: .call d true t.args :: inner ++ .token (d + 1) u :: rest)

/-- What a successful `parse` of a kind has read: directives, and the end of the block or
of the file; the end of the file is met with nothing pending and every byte taken. -/
def Parsed (kind : Kind) (depth : ℕ) (cf : ConfFile) (seen : List Obs) : Prop :=
  ∃ body u, seen = body ++ [.token depth u] ∧ Directives (kind ≠ .param) depth body ∧
    if kind = .block then u.rc = .blockDone
    else u.rc = .fileDone ∧ u.args = [] ∧ cf.remaining = 0

/-- What each part of a run keeps. -/
structure Kept (r r' : Run σ) : Prop where
  bounded : r'.cf.Bounded
  fd : r'.cf.file.fd = r.cf.file.fd
  remaining_le : r'.cf.remaining ≤ r.cf.remaining

theorem Kept.trans {r r' r'' : Run σ} (h : Kept r r') (h' : Kept r' r'') : Kept r r'' :=
  ⟨h'.bounded, h'.fd.trans h.fd, h'.remaining_le.trans h.remaining_le⟩

/-- A call of `parse` returns `CONF_OK` or `CONF_ERROR`, the former only for what is
balanced. -/
structure ParseSpec (kind : Kind) (depth : ℕ) (r : Run σ) (rv : Rv) (r' : Run σ) : Prop where
  kept : Kept r r'
  returns : rv = .ok ∨ rv = .error
  parsed : rv = .ok → ∃ seen, r'.trace = r.trace ++ seen ∧ Parsed kind depth r'.cf seen

theorem ParseSpec.error {kind : Kind} {depth : ℕ} {r r' : Run σ} (h : Kept r r') :
    ParseSpec kind depth r .error r' :=
  ⟨h, .inr rfl, fun hok => by cases hok⟩

theorem readToken_kept {r : Run σ} (hb : r.cf.Bounded) : ∃ t cf, readToken r.cf = some (t, cf) ∧
    Kept r { r with cf := cf } ∧
    (t.rc = .ok ∨ t.rc = .blockStart ∨ t.rc = .blockDone → cf.remaining < r.cf.remaining) ∧
    (t.rc = .fileDone → cf.remaining = 0 ∧ t.args = []) := by
  obtain ⟨rc, cf', s', hrun, hsc⟩ := @readLoop_scanned r.cf (Scan.init r.cf.buffer.pos r.cf.line) _
    hb le_rfl (Nat.lt_succ_self _)
  refine ⟨s'.token rc, { cf' with line := s'.line }, ?_,
    ⟨⟨hsc.bounded.pos_le, hsc.bounded.last_le⟩, hsc.fd, hsc.remaining_le⟩, hsc.remaining_lt,
    hsc.fileDone⟩
  rw [readToken, hrun]
  rfl

section SetterRuns

variable {parse : Scope → Run σ → Option (Rv × Run σ)} {depth n : ℕ} {fd : ℤ}

/-- The meaning of the nested calls: they return as specified where less than `n` bytes
remain. -/
def Nested (parse : Scope → Run σ → Option (Rv × Run σ)) (depth n : ℕ) : Prop :=
  ∀ scope r, r.cf.Bounded → r.cf.remaining < n →
    ∃ rv r', parse scope r = some (rv, r') ∧ ParseSpec (Kind.nested r.cf) depth r rv r'

theorem Setter.Fails.run {s : Setter σ} (h : s.Fails) (hparse : Nested parse depth n) {r : Run σ}
    (hb : r.cf.Bounded) (hn : r.cf.remaining < n) :
    ∃ rv r', s.run parse r = some (rv, r') ∧ Kept r r' ∧ rv ≠ .ok := by
  induction s generalizing r with
  | done rv st => exact ⟨rv, _, rfl, ⟨hb, rfl, le_rfl⟩, h⟩
  | parse scope st k ih =>
    obtain ⟨rv, r₁, hrun, hspec⟩ := hparse scope { r with st := st } hb hn
    obtain ⟨rv', r₂, hrun', hkept, hne⟩ := ih rv r₁.st (h rv r₁.st) hspec.kept.bounded
      (hspec.kept.remaining_le.trans_lt hn)
    refine ⟨rv', r₂, ?_, Kept.trans ⟨hspec.kept.bounded, hspec.kept.fd,
      hspec.kept.remaining_le⟩ hkept, hne⟩
    rw [Setter.run, hrun]
    exact hrun'

/-- A simple setter succeeds only by changing the state of the program. -/
theorem Setter.Simple.run {s : Setter σ} (h : s.Simple) (hparse : Nested parse depth n) {r : Run σ}
    (hb : r.cf.Bounded) (hn : r.cf.remaining < n) :
    ∃ rv r', s.run parse r = some (rv, r') ∧ Kept r r' ∧
      (rv = .ok → ∃ st, r' = { r with st := st }) := by
  cases s with
  | done rv st => exact ⟨rv, _, rfl, ⟨hb, rfl, le_rfl⟩, fun _ => ⟨st, rfl⟩⟩
  | parse scope st k =>
    have hfails : (Setter.parse scope st k).Fails := h
    obtain ⟨rv, r', hrun, hkept, hne⟩ := hfails.run hparse hb hn
    exact ⟨rv, r', hrun, hkept, fun hok => absurd hok hne⟩

/-- A setter of a block succeeds only with what its nested `parse` has read. -/
theorem Setter.AfterParse.run {s : Setter σ} (h : s.AfterParse) (hparse : Nested parse depth n)
    {r : Run σ} (hb : r.cf.Bounded) (hn : r.cf.remaining < n) :
    ∃ rv r', s.run parse r = some (rv, r') ∧ Kept r r' ∧
      (rv = .ok → ∃ seen, r'.trace = r.trace ++ seen ∧
        Parsed (Kind.nested r.cf) depth r'.cf seen) := by
  cases s with
  | done rv st => exact ⟨rv, _, rfl, ⟨hb, rfl, le_rfl⟩, fun hok => absurd hok h⟩
  | parse scope st k =>
    obtain ⟨rv, r₁, hrun, hspec⟩ := hparse scope { r with st := st } hb hn
    have hkept : Kept r r₁ := ⟨hspec.kept.bounded, hspec.kept.fd, hspec.kept.remaining_le⟩
    by_cases hok : rv = .ok
    · subst hok
      obtain ⟨rv', r₂, hrun', hkept', hsame⟩ := (h.1 r₁.st).run hparse hkept.bounded
        (hkept.remaining_le.trans_lt hn)
      refine ⟨rv', r₂, ?_, hkept.trans hkept', fun hok' => ?_⟩
      · rw [Setter.run, hrun]
        exact hrun'
      · obtain ⟨st', rfl⟩ := hsame hok'
        exact hspec.parsed rfl
    · obtain ⟨rv', r₂, hrun', hkept', hne⟩ := (h.2 rv r₁.st hok).run hparse hkept.bounded
        (hkept.remaining_le.trans_lt hn)
      refine ⟨rv', r₂, ?_, hkept.trans hkept', fun hok => absurd hok hne⟩
      rw [Setter.run, hrun]
      exact hrun'

end SetterRuns

theorem findCommand_mem {scope : Scope} {name : Bytes} {found : Bool}
    {l : List (Module σ × Command σ)} {p : Module σ × Command σ}
    (h : findCommand scope name found l = .ok p) : p ∈ l := by
  induction l generalizing found with
  | nil => cases h
  | cons q l ih =>
    obtain ⟨mod, cmd⟩ := q
    rw [findCommand] at h
    split_ifs at h
    · exact List.mem_cons_of_mem _ (ih h)
    · exact List.mem_cons_of_mem _ (ih h)
    · exact List.mem_cons_of_mem _ (ih h)
    · obtain rfl := Except.ok.inj h
      exact List.mem_cons_self

theorem mem_allCommands {mod : Module σ} {cmd : Command σ} :
    (mod, cmd) ∈ allCommands modules ↔ mod ∈ modules ∧ cmd ∈ mod.commands := by
  simp only [allCommands, List.mem_flatMap, List.mem_map, Prod.mk.injEq]
  constructor
  · rintro ⟨mod', hmod, cmd', hcmd, rfl, rfl⟩
    exact ⟨hmod, hcmd⟩
  · rintro ⟨hmod, hcmd⟩
    exact ⟨mod, hmod, cmd, hcmd, rfl, rfl⟩

theorem checkCommand_none {cmd : Command σ} {last : Rc} {args : List Bytes} {name : Bytes}
    (h : checkCommand cmd last args name = none) :
    cmd.isBlock = decide (last = .blockStart) := by
  rw [checkCommand] at h
  split_ifs at h with h₁ h₂
  by_cases hb : cmd.isBlock <;> by_cases hl : last = .blockStart <;> simp_all

/-- What a successful `handle_` has seen. -/
inductive Handled (depth : ℕ) (last : Rc) (args : List Bytes) (r r' : Run σ) : Prop
  | simple : last ≠ .blockStart → r'.trace = r.trace ++ [.call depth false args] →
      Handled depth last args r r'
  | block {seen : List Obs} : last = .blockStart →
      r'.trace = r.trace ++ .call depth true args :: seen →
      Parsed (Kind.nested r.cf) (depth + 1) r'.cf seen → Handled depth last args r r'

theorem handle_spec {parse : Scope → Run σ → Option (Rv × Run σ)} {depth n : ℕ}
    (hm : WellBehaved modules) (hparse : Nested parse (depth + 1) n) (scope : Scope) (last : Rc)
    (args : List Bytes) {r : Run σ} (hb : r.cf.Bounded) (hn : r.cf.remaining < n) :
    ∃ rv r', handle modules parse scope depth last args r = some (rv, r') ∧ Kept r r' ∧
      (rv = .ok ∨ rv = .error) ∧ (rv = .ok → Handled depth last args r r') := by
  have hself : ∀ o, Kept r (r.see o) := fun o => ⟨hb, rfl, le_rfl⟩
  simp only [handle]
  split
  · exact ⟨_, _, rfl, hself _, .inr rfl, nofun⟩
  · rename_i mod cmd hfind
    split
    · exact ⟨_, _, rfl, hself _, .inr rfl, nofun⟩
    · rename_i hcheck
      obtain ⟨hmod, hcmd⟩ := mem_allCommands.mp (findCommand_mem hfind)
      have hset := hm mod hmod cmd hcmd ⟨args, scope, confSlot mod cmd scope r.st⟩ r.st
      have hblock := checkCommand_none hcheck
      obtain ⟨rv, r₁, hrun, hkept, hok⟩ : ∃ rv r₁,
          (cmd.set ⟨args, scope, confSlot mod cmd scope r.st⟩ r.st).run parse
            (r.see (.call depth cmd.isBlock args)) = some (rv, r₁) ∧ Kept r r₁ ∧
          (rv = .ok → Handled depth last args r r₁) := by
        cases hkind : cmd.isBlock with
        | true =>
          rw [hkind, if_pos rfl] at hset
          have hlast : last = .blockStart := by simpa [hkind] using hblock.symm
          obtain ⟨rv, r₁, hrun, hkept, hseen⟩ := hset.run (r := r.see (.call depth true args))
            hparse hb hn
          refine ⟨rv, r₁, hrun, ⟨hkept.bounded, hkept.fd, hkept.remaining_le⟩, fun hrv => ?_⟩
          obtain ⟨seen, htrace, hparsed⟩ := hseen hrv
          exact .block hlast (by rw [htrace, Run.see, List.append_assoc]; rfl) hparsed
        | false =>
          rw [hkind, if_neg (by simp)] at hset
          have hlast : last ≠ .blockStart := by simpa [hkind] using hblock.symm
          obtain ⟨rv, r₁, hrun, hkept, hsame⟩ := hset.run (r := r.see (.call depth false args))
            hparse hb hn
          refine ⟨rv, r₁, hrun, ⟨hkept.bounded, hkept.fd, hkept.remaining_le⟩, fun hrv => ?_⟩
          obtain ⟨st, rfl⟩ := hsame hrv
          exact .simple hlast rfl
      rw [hrun]
      cases rv with
      | ok => exact ⟨_, _, rfl, hkept, .inl rfl, hok⟩
      | error => exact ⟨_, _, rfl, hkept, .inr rfl, nofun⟩
      | text msg =>
        exact ⟨_, _, rfl, ⟨hkept.bounded, hkept.fd, hkept.remaining_le⟩, .inr rfl, nofun⟩

theorem Parsed.cons {kind : Kind} {depth : ℕ} {cf' : ConfFile} {t : Token} {r r' : Run σ}
    {seen : List Obs} (h : Parsed kind depth cf' seen)
    (ht : t.rc = .ok ∨ t.rc = .blockStart ∧ kind ≠ .param)
    (hh : Handled depth t.rc t.args r r') (hfd : kind ≠ .param → r.cf.file.fd ≠ -1) :
    ∃ mid, r'.trace = r.trace ++ mid ∧ Parsed kind depth cf' (.token depth t :: mid ++ seen) := by
  obtain ⟨body, u, rfl, hbody, hlast⟩ := h
  cases hh with
  | simple hne htrace =>
    have hrc : t.rc = .ok := ht.resolve_right fun h => hne h.1
    exact ⟨_, htrace, .token depth t :: .call depth false t.args :: body, u, by simp,
      .simple hrc hbody, hlast⟩
  | block hstart htrace hparsed =>
    rcases ht with hok | ⟨-, hkind⟩
    · exact absurd (hok.symm.trans hstart) (by simp)
    · have hnested : Kind.nested r.cf = .block := if_pos (hfd hkind)
      obtain ⟨inner, v, rfl, hinner, hv⟩ := hparsed
      rw [hnested] at hinner hv
      have hblocks : decide (kind ≠ .param) = true := by simpa using hkind
      refine ⟨_, htrace, .token depth t :: .call depth true t.args :: inner ++
        .token (depth + 1) v :: body, u, by simp, ?_, hlast⟩
      rw [hblocks] at hbody ⊢
      exact .block rfl hstart hinner hv hbody

/-- The loop returns as specified where less than `k` bytes remain. -/
def LoopSpec (modules : List (Module σ)) (k : ℕ) : Prop :=
  ∀ (kind : Kind) (depth : ℕ) (scope : Scope) (r : Run σ), r.cf.Bounded → r.cf.remaining < k →
    (kind ≠ .param → r.cf.file.fd ≠ -1) →
    ∃ rv r', parseLoop modules k kind depth scope r = some (rv, r') ∧ ParseSpec kind depth r rv r'

section Loop

variable {k depth : ℕ} {kind : Kind} {r r₁ : Run σ} {t : Token}

theorem LoopSpec.nested (h : LoopSpec modules k) :
    Nested (fun scope r => parseLoop modules k (.nested r.cf) depth scope r) depth k := by
  intro scope r hb hn
  refine h _ depth scope r hb hn fun hkind => ?_
  by_contra hfd
  exact hkind (if_neg (not_not.mpr hfd))

/-- A directive is handled, and the loop goes on with what is left. -/
theorem LoopSpec.directive (h : LoopSpec modules k) (hm : WellBehaved modules) (scope : Scope)
    (hkept : Kept r r₁) (htrace : r₁.trace = r.trace ++ [.token depth t])
    (hless : r₁.cf.remaining < k) (hfd : kind ≠ .param → r.cf.file.fd ≠ -1)
    (ht : t.rc = .ok ∨ t.rc = .blockStart ∧ kind ≠ .param) :
    ∃ rv r₂, handle modules (fun scope r => parseLoop modules k (.nested r.cf) (depth + 1) scope r)
        scope depth t.rc t.args r₁ = some (rv, r₂) ∧
      (rv = .ok ∧ (∃ rv r', parseLoop modules k kind depth scope r₂ = some (rv, r') ∧
        ParseSpec kind depth r rv r') ∨ rv = .error ∧ ParseSpec kind depth r .error r₂) := by
  obtain ⟨rv, r₂, hrun, hkept₂, hrv, hhandled⟩ := handle_spec hm h.nested scope t.rc t.args
    hkept.bounded hless
  refine ⟨rv, r₂, hrun, ?_⟩
  rcases hrv with rfl | rfl
  · refine .inl ⟨rfl, ?_⟩
    have hfd₁ : kind ≠ .param → r₁.cf.file.fd ≠ -1 := fun hk => hkept.fd.symm ▸ hfd hk
    have hfd₂ : kind ≠ .param → r₂.cf.file.fd ≠ -1 := fun hk => hkept₂.fd.symm ▸ hfd₁ hk
    obtain ⟨rv, r₃, hrun₃, hspec⟩ := h kind depth scope r₂ hkept₂.bounded
      (hkept₂.remaining_le.trans_lt hless) hfd₂
    refine ⟨rv, r₃, hrun₃, (hkept.trans hkept₂).trans hspec.kept, hspec.returns, fun hok => ?_⟩
    obtain ⟨seen, htrace₃, hparsed⟩ := hspec.parsed hok
    obtain ⟨mid, htrace₂, hparsed'⟩ := hparsed.cons ht (hhandled rfl) hfd₁
    exact ⟨_, by rw [htrace₃, htrace₂, htrace]; simp, hparsed'⟩
  · exact .inr ⟨rfl, .error (hkept.trans hkept₂)⟩

end Loop

theorem parseLoop_spec (hm : WellBehaved modules) (k : ℕ) : LoopSpec modules k := by
  induction k with
  | zero =>
    intro kind depth scope r hb hk
    omega
  | succ k ih =>
    intro kind depth scope r hb hk hfd
    obtain ⟨t, cf, hread, hkept, hlt, hdone⟩ := readToken_kept hb
    obtain ⟨r₁, hr₁⟩ : ∃ r₁, r₁ = { r with cf := cf }.see (.token depth t) := ⟨_, rfl⟩
    have hcf : r₁.cf = cf := by rw [hr₁]; rfl
    have htrace : r₁.trace = r.trace ++ [.token depth t] := by rw [hr₁]; rfl
    have hkept₁ : Kept r r₁ := by
      rw [hr₁]
      exact ⟨hkept.bounded, hkept.fd, hkept.remaining_le⟩
    have hsee : ∀ o, Kept r (r₁.see o) := fun o =>
      ⟨hkept₁.bounded, hkept₁.fd, hkept₁.remaining_le⟩
    have hless : t.rc = .ok ∨ t.rc = .blockStart → r₁.cf.remaining < k := fun ht => by
      have := hlt (ht.imp id .inl)
      rw [hcf]
      omega
    have hfinish : (if kind = .block then t.rc = .blockDone
        else t.rc = .fileDone ∧ t.args = [] ∧ cf.remaining = 0) →
        ParseSpec kind depth r .ok r₁ := fun h =>
      ⟨hkept₁, .inl rfl, fun _ => ⟨_, htrace, [], t, rfl, .nil, hcf.symm ▸ h⟩⟩
    rw [parseLoop, hread]
    dsimp only
    rw [← hr₁]
    cases hrc : t.rc with
    | error e => exact ⟨_, _, rfl, .error hkept₁⟩
    | blockDone =>
      by_cases hkind : kind = .block
      · refine ⟨_, _, if_neg (not_not.mpr hkind), hfinish ?_⟩
        rw [if_pos hkind]
        exact hrc
      · exact ⟨_, _, if_pos hkind, .error (hsee _)⟩
    | fileDone =>
      by_cases hkind : kind = .block
      · exact ⟨_, _, if_pos hkind, .error (hsee _)⟩
      · obtain ⟨hrem, hargs⟩ := hdone hrc
        refine ⟨_, _, if_neg hkind, hfinish ?_⟩
        rw [if_neg hkind]
        exact ⟨hrc, hargs, hrem⟩
    | ok =>
      obtain ⟨rv, r₂, hrun, hnext⟩ := ih.directive hm scope hkept₁ htrace
        (hless (.inl hrc)) hfd (.inl hrc)
      rw [hrc] at hrun
      dsimp only
      rw [hrun]
      rcases hnext with ⟨rfl, hnext⟩ | ⟨rfl, hspec⟩
      · exact hnext
      · exact ⟨_, _, rfl, hspec⟩
    | blockStart =>
      by_cases hkind : kind = .param
      · exact ⟨_, _, if_pos ⟨rfl, hkind⟩, .error (hsee _)⟩
      · obtain ⟨rv, r₂, hrun, hnext⟩ := ih.directive hm scope hkept₁ htrace
          (hless (.inr hrc)) hfd (.inr ⟨hrc, hkind⟩)
        rw [hrc] at hrun
        dsimp only
        rw [if_neg fun h : _ ∧ kind = .param => hkind h.2, hrun]
        rcases hnext with ⟨rfl, hnext⟩ | ⟨rfl, hspec⟩
        · exact hnext
        · exact ⟨_, _, rfl, hspec⟩

/-- Tokens among directives start or end blocks, or end a simple directive. -/
theorem Directives.token {blocks : Bool} {d : ℕ} {l : List Obs} (h : Directives blocks d l) :
    ∀ (d' : ℕ) (t : Token), Obs.token d' t ∈ l →
      t.rc = .ok ∨ blocks = true ∧ (t.rc = .blockStart ∨ t.rc = .blockDone ∧ d < d') := by
  induction h with
  | nil => simp
  | simple hrc _ ih =>
    intro d' t ht
    rcases List.mem_cons.mp ht with heq | ht
    · cases heq
      exact .inl hrc
    · exact ih d' t (by simpa using ht)
  | @block d t u inner rest hblocks hstart _ hu _ ih ih' =>
    intro d' v hv
    simp only [List.cons_append, List.mem_cons, List.mem_append, reduceCtorEq, false_or,
      Obs.token.injEq] at hv
    rcases hv with ⟨rfl, rfl⟩ | hv | ⟨rfl, rfl⟩ | hv
    · exact .inr ⟨hblocks, .inl hstart⟩
    · exact (ih d' v hv).imp id fun h => ⟨h.1, h.2.imp id fun h => ⟨h.1, by omega⟩⟩
    · exact .inr ⟨hblocks, .inr ⟨hu, by omega⟩⟩
    · exact ih' d' v hv

/-- A well formed file: its tokens are balanced, no block ends at depth 0, the end of the
file is met there with nothing pending, and every byte has been taken. -/
structure WellFormed (r : Run σ) : Prop where
  balanced : ∃ body u, r.trace = body ++ [.token 0 u] ∧ Directives true 0 body ∧ u.rc = .fileDone
  noBlockDone : ∀ t, .token 0 t ∈ r.trace → t.rc ≠ .blockDone
  fileDone : ∀ d t, .token d t ∈ r.trace → t.rc = .fileDone → d = 0 ∧ t.args = []
  remaining : r.cf.remaining = 0

theorem Parsed.wellFormed {r : Run σ} (h : Parsed .file 0 r.cf r.trace) : WellFormed r := by
  obtain ⟨body, u, htrace, hbody, hrc, hargs, hrem⟩ := h
  have hmem : ∀ d t, Obs.token d t ∈ r.trace → Obs.token d t ∈ body ∨ d = 0 ∧ t = u := by
    intro d t ht
    simpa [htrace] using ht
  refine ⟨⟨body, u, htrace, hbody, hrc⟩, fun t ht => ?_, fun d t ht hdone => ?_, hrem⟩
  · rcases hmem 0 t ht with ht | ⟨-, rfl⟩
    · rcases hbody.token 0 t ht with h | ⟨-, h | ⟨-, h⟩⟩
      · simp [h]
      · simp [h]
      · omega
    · simp [hrc]
  · rcases hmem d t ht with ht | ⟨rfl, rfl⟩
    · rcases hbody.token d t ht with h | ⟨-, h | ⟨h, -⟩⟩ <;> simp [h] at hdone
    · exact ⟨rfl, hargs⟩

/-- A run returns `CONF_OK` or `CONF_ERROR`; the former, on a file, only if that is well
formed, and on the text of a `-g` option only if no block is in it. -/
theorem parse_wellFormed (hm : WellBehaved modules) (o : Opened) (filename text : Bytes)
    (scope : Scope) (st : σ) :
    (∃ rv r, parseFile modules o filename scope st = some (rv, r) ∧ (rv = .ok ∨ rv = .error) ∧
      (rv = .ok → WellFormed r)) ∧
    ∃ rv r, param modules text scope st = some (rv, r) ∧ (rv = .ok ∨ rv = .error) ∧
      (rv = .ok → ∀ d t, .token d t ∈ r.trace → t.rc ≠ .blockStart ∧ t.rc ≠ .blockDone) := by
  constructor
  · rw [parseFile]
    split_ifs with hfd hstat
    · exact ⟨_, _, rfl, .inr rfl, nofun⟩
    · exact ⟨_, _, rfl, .inr rfl, nofun⟩
    · obtain ⟨rv, r, hrun, hspec⟩ := parseLoop_spec hm _ .file 0 scope
        ⟨.opened o.fd filename (o.stat.getD 0) o.pread, st, []⟩
        (ConfFile.bounded_opened _ _ _ _) (Nat.lt_succ_self _) fun _ => hfd
      refine ⟨rv, r, hrun, hspec.returns, fun hok => ?_⟩
      obtain ⟨seen, htrace, hparsed⟩ := hspec.parsed hok
      obtain rfl : r.trace = seen := htrace
      exact hparsed.wellFormed
  · rw [param]
    split_ifs with htext
    · exact ⟨_, _, rfl, .inl rfl, fun _ d t ht => by simp at ht⟩
    · obtain ⟨rv, r, hrun, hspec⟩ := parseLoop_spec hm _ .param 0 scope ⟨.param text, st, []⟩
        (ConfFile.bounded_param text) (Nat.lt_succ_self _) fun h => absurd rfl h
      refine ⟨rv, r, hrun, hspec.returns, fun hok d t ht => ?_⟩
      obtain ⟨seen, htrace, body, u, rfl, hbody, hrc, -⟩ := hspec.parsed hok
      have htrace' : r.trace = body ++ [.token 0 u] := htrace
      have hmem : Obs.token d t ∈ body ∨ d = 0 ∧ t = u := by simpa [htrace'] using ht
      rcases hmem with ht | ⟨-, rfl⟩
      · rcases hbody.token d t ht with h | ⟨h, -⟩
        · simp [h]
        · simp at h
      · simp [hrc]

section Example

/-- `Events_block_`, for the state that tells whether the block has been met. -/
def eventsBlock (call : Call) (met : Bool) : Setter Bool :=
  if met then .done (.text (ascii "is duplicate")) met
  else .parse { call.scope with ctx := some 1, moduleType := EVENT_MODULE, cmdType := EVENT_CONF }
    true .done

def eventModules : List (Module Bool) :=
  [⟨CORE_MODULE, 0, fun _ => 0,
      [⟨ascii "events", MAIN_CONF ||| CONF_BLOCK ||| CONF_NOARGS, 0, eventsBlock⟩]⟩,
    ⟨EVENT_MODULE, 1, fun _ => 0,
      [⟨ascii "multi_accept", EVENT_CONF ||| CONF_FLAG, 0, fun _ st => .done .ok st⟩]⟩]

theorem eventModules_wellBehaved : WellBehaved eventModules := by
  intro mod hmod cmd hcmd call st
  rcases List.mem_pair.mp hmod with rfl | rfl
  · obtain rfl := List.mem_singleton.mp hcmd
    rw [if_pos (by decide)]
    cases st with
    | true => exact nofun
    | false => exact ⟨fun _ => trivial, fun _ _ h => h⟩
  · obtain rfl := List.mem_singleton.mp hcmd
    rw [if_neg (by decide)]
    trivial

theorem parse_wellFormed_events : ∃ r,
    parseFile eventModules ⟨3, some 26, readFrom (ascii "events \x7b multi_accept on;\x7d")⟩
      (ascii "lingx.conf") ⟨some 0, CORE_MODULE, MAIN_CONF⟩ false = some (.ok, r) ∧
    WellFormed r := by
  obtain ⟨⟨rv, r, hrun, -, hok⟩, -⟩ := parse_wellFormed eventModules_wellBehaved
    ⟨3, some 26, readFrom (ascii "events \x7b multi_accept on;\x7d")⟩ (ascii "lingx.conf") []
    ⟨some 0, CORE_MODULE, MAIN_CONF⟩ false
  have hrv : (parseFile eventModules
      ⟨3, some 26, readFrom (ascii "events \x7b multi_accept on;\x7d")⟩ (ascii "lingx.conf")
      ⟨some 0, CORE_MODULE, MAIN_CONF⟩ false).map (·.1) = some .ok := by
    decide
  rw [hrun] at hrv
  obtain rfl := Option.some.inj hrv
  exact ⟨r, hrun, hok rfl⟩

end Example

end Lingx.Conf

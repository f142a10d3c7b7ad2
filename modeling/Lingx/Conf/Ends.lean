import Lingx.Conf.Balance

/-! The scan is bounded and ends. The iterations of a call of `read_token_` are taken as a
relation in which each call of `pread()` may have any outcome, also another one for the
same place of the file. In every iteration the places lie in their order in the buffer;
an iteration that goes on takes one of the bytes that remain. `parse` ends for all
setters, since a setter that is a tree of calls ends. -/

namespace Lingx.Conf

/-- The next outcomes of `pread()`. -/
def ConfFile.withPread (cf : ConfFile) (pread : ℕ → ℕ → Option Bytes) : ConfFile :=
  { cf with file := { cf.file with pread := pread } }

/-- The iterations of a call of `read_token_`: the state in which the next one begins. -/
inductive Iterates (cf₀ : ConfFile) : ℕ → ConfFile → Scan → Prop
  | start : Iterates cf₀ 0 cf₀ (Scan.init cf₀.buffer.pos cf₀.line)
  | next {n : ℕ} {cf cf' : ConfFile} {s s' s'' : Scan} (pread : ℕ → ℕ → Option Bytes) :
      Iterates cf₀ n cf s → fill (cf.withPread pread) s = .more cf' s' →
      turn cf'.buffer.mem cf'.buffer.pos s' = .next s'' →
      Iterates cf₀ (n + 1) (cf'.setPos (cf'.buffer.pos + 1)) s''

/-- An iteration that returns, from its refill or from its byte. -/
inductive Returns (cf : ConfFile) (s : Scan) : Rc → ConfFile → Scan → Prop
  | fill {cf' : ConfFile} {s' : Scan} {rc : Rc} (pread : ℕ → ℕ → Option Bytes) :
      fill (cf.withPread pread) s = .ret rc cf' s' → Returns cf s rc cf' s'
  | turn {cf' : ConfFile} {s' s'' : Scan} {rc : Rc} (pread : ℕ → ℕ → Option Bytes) :
      Conf.fill (cf.withPread pread) s = .more cf' s' →
      Conf.turn cf'.buffer.mem cf'.buffer.pos s' = .ret rc s'' →
      Returns cf s rc (cf'.setPos (cf'.buffer.pos + 1)) s''

/-- The configuration files that the calls of `read_token_` find, one after the other. -/
inductive Called : ConfFile → Prop
  | opened (fd : ℤ) (name : Bytes) (stSize : ℕ) (pread : ℕ → ℕ → Option Bytes) :
      Called (.opened fd name stSize pread)
  | param (text : Bytes) : Called (.param text)
  | call {n : ℕ} {cf cf' cf'' : ConfFile} {s s' : Scan} {rc : Rc} :
      Called cf → Iterates cf n cf' s → Returns cf' s rc cf'' s' →
      Called { cf'' with line := s'.line }

/-- The order of the pointers; places are counted from `b->start`. -/
structure Pointers (cf : ConfFile) (s : Scan) : Prop where
  start_le : s.start ≤ cf.buffer.pos
  pos_le : cf.buffer.pos ≤ cf.buffer.last
  last_le : cf.buffer.last ≤ cf.buffer.bend

/-- An iteration refills the buffer: it asks for `size` bytes, to be put behind the first
`len` of the buffer. -/
structure Asks (cf : ConfFile) (s : Scan) (len size : ℕ) : Prop where
  scanned : cf.buffer.last ≤ cf.buffer.pos
  more : cf.file.offset < cf.file.stSize
  len_eq : len = cf.buffer.pos - s.start
  room : len ≠ MAX_CONF_BUFFER
  size_eq : size = min (cf.file.stSize - cf.file.offset) (cf.buffer.bend - len)

/-- What holds between the calls of `read_token_` and between its iterations. -/
structure ConfFile.Within (cf : ConfFile) : Prop where
  pos_le : cf.buffer.pos ≤ cf.buffer.last
  last_le : cf.buffer.last ≤ cf.buffer.bend
  bend_eq : cf.file.offset < cf.file.stSize → cf.buffer.bend = MAX_CONF_BUFFER

section Scan

variable {cf cf' cf₀ : ConfFile} {s s' : Scan} {rc : Rc} {n : ℕ}

theorem ConfFile.Within.bounded (g : cf.Within) : cf.Bounded :=
  ⟨g.pos_le, fun h => ⟨g.last_le, g.bend_eq h⟩⟩

/-- The beginning of an iteration: there is a byte, there is none and nothing to read or no
room for it, or the buffer is refilled. -/
theorem fill_cases (cf : ConfFile) (s : Scan) :
    (fill cf s = .more cf s ∧ cf.buffer.pos < cf.buffer.last) ∨
    (∃ rc s', fill cf s = .ret rc cf s') ∨
    ∃ len size, Asks cf s len size ∧
      fill cf s = readMore cf (moveToFront cf.buffer.mem s.start len) len s := by
  rw [fill]
  by_cases hlast : cf.buffer.last ≤ cf.buffer.pos
  · rw [if_pos hlast, refill]
    by_cases hoff : cf.file.stSize ≤ cf.file.offset
    · exact .inr (.inl ⟨_, _, if_pos hoff⟩)
    · rw [if_neg hoff]
      dsimp only
      by_cases hlen : cf.buffer.pos - s.start = MAX_CONF_BUFFER
      · exact .inr (.inl ⟨_, _, if_pos hlen⟩)
      · exact .inr (.inr ⟨_, _, ⟨hlast, by omega, rfl, hlen, rfl⟩, if_neg hlen⟩)
  · rw [if_neg hlast]
    exact .inl ⟨rfl, by omega⟩

/-- A refill asks for at least one byte and for no more than there is room for. -/
theorem Asks.bounds {len size : ℕ} (h : Asks cf s len size) (g : cf.Within) :
    1 ≤ size ∧ len + size ≤ cf.buffer.bend := by
  have hbend := g.bend_eq h.more
  have hpos := g.pos_le
  have hlast := g.last_le
  obtain ⟨hscanned, hmore, hlen, hroom, hsize⟩ := h
  omega

theorem readMore_more {mem : ℕ → Byte} {len size : ℕ} (h : Asks cf s len size) (g : cf.Within)
    (hf : readMore cf mem len s = .more cf' s') :
    cf'.Within ∧ s'.start ≤ cf'.buffer.pos ∧ cf'.buffer.pos < cf'.buffer.last ∧
      cf'.remaining = cf.remaining := by
  obtain ⟨hone, hroom⟩ := h.bounds g
  have hsize := h.size_eq
  simp only [readMore, File.read] at hf
  rw [← hsize] at hf
  cases hp : cf.file.pread size cf.file.offset with
  | none =>
    rw [hp] at hf
    cases hf
  | some data =>
    rw [hp] at hf
    dsimp only at hf
    split_ifs at hf with hlen
    cases hf
    have hpos := g.pos_le
    have hscanned := h.scanned
    refine ⟨⟨Nat.le_add_right _ _, ?_, fun _ => g.bend_eq h.more⟩, Nat.zero_le _, ?_, ?_⟩
    · show len + data.length ≤ cf.buffer.bend
      omega
    · show len < len + data.length
      omega
    · simp only [ConfFile.remaining]
      omega

theorem readMore_ret {mem : ℕ → Byte} {len size : ℕ} (h : Asks cf s len size) (g : cf.Within)
    (hf : readMore cf mem len s = .ret rc cf' s') : cf'.Within ∧ s' = s := by
  simp only [readMore, File.read] at hf
  cases hp : cf.file.pread (min (cf.file.stSize - cf.file.offset) (cf.buffer.bend - len))
      cf.file.offset with
  | none =>
    rw [hp] at hf
    cases hf
    exact ⟨⟨g.pos_le, g.last_le, g.bend_eq⟩, rfl⟩
  | some data =>
    rw [hp] at hf
    dsimp only at hf
    split_ifs at hf with hlen
    cases hf
    exact ⟨⟨g.pos_le, g.last_le, fun _ => g.bend_eq h.more⟩, rfl⟩

theorem ConfFile.Within.withPread (g : cf.Within) (pread : ℕ → ℕ → Option Bytes) :
    (cf.withPread pread).Within := ⟨g.pos_le, g.last_le, g.bend_eq⟩

/-- The beginning of an iteration that goes on leaves a byte to scan. -/
theorem fill_more (g : cf.Within) (hs : s.start ≤ cf.buffer.pos) (hf : fill cf s = .more cf' s') :
    cf'.Within ∧ s'.start ≤ cf'.buffer.pos ∧ cf'.buffer.pos < cf'.buffer.last ∧
      cf'.remaining = cf.remaining := by
  rcases fill_cases cf s with ⟨hm, hlt⟩ | ⟨rc, s₁, hr⟩ | ⟨len, size, ha, hr⟩
  · rw [hm] at hf
    cases hf
    exact ⟨g, hs, hlt, rfl⟩
  · rw [hr] at hf
    cases hf
  · exact readMore_more ha g (hr.symm.trans hf)

theorem fill_ret (g : cf.Within) (hf : fill cf s = .ret rc cf' s') : cf'.Within := by
  rcases fill_cases cf s with ⟨hm, -⟩ | ⟨rc, s₁, hr⟩ | ⟨len, size, ha, hr⟩
  · rw [hm] at hf
    cases hf
  · rw [hr] at hf
    cases hf
    exact g
  · exact (readMore_ret ha g (hr.symm.trans hf)).1

theorem ConfFile.Within.take (g : cf.Within) (hlt : cf.buffer.pos < cf.buffer.last) :
    (cf.setPos (cf.buffer.pos + 1)).Within ∧
      (cf.setPos (cf.buffer.pos + 1)).remaining + 1 = cf.remaining := by
  refine ⟨⟨hlt, g.last_le, g.bend_eq⟩, ?_⟩
  simp only [ConfFile.remaining, ConfFile.setPos]
  omega

/-- Every iteration begins with the places in order, and each before it has taken one of
the bytes that remained. -/
theorem Iterates.within (h : Iterates cf₀ n cf s) (g : cf₀.Within) :
    cf.Within ∧ s.start ≤ cf.buffer.pos ∧ n + cf.remaining = cf₀.remaining := by
  induction h with
  | start => exact ⟨g, le_rfl, Nat.zero_add _⟩
  | @next n cf cf' s s' s'' pread _ hf ht ih =>
    obtain ⟨g', hs, hn⟩ := ih
    obtain ⟨g₁, hs₁, hlt, hrem⟩ := fill_more (g'.withPread pread) hs hf
    obtain ⟨g₂, htake⟩ := g₁.take hlt
    have hmoves := turn_moves cf'.buffer.mem hs₁
    rw [ht] at hmoves
    have hrem' : cf'.remaining = cf.remaining := hrem
    exact ⟨g₂, hmoves.2, by omega⟩

theorem Returns.within {cf₁ : ConfFile} {s₁ : Scan} (h : Returns cf s rc cf₁ s₁) (g : cf.Within)
    (hs : s.start ≤ cf.buffer.pos) : cf₁.Within := by
  cases h with
  | fill pread hf => exact fill_ret (g.withPread pread) hf
  | turn pread hf _ =>
    obtain ⟨g₁, -, hlt, -⟩ := fill_more (g.withPread pread) hs hf
    exact (g₁.take hlt).1

theorem Called.within (h : Called cf) : cf.Within := by
  induction h with
  | opened fd name stSize pread => exact ⟨le_rfl, Nat.zero_le _, fun _ => rfl⟩
  | param text => exact ⟨Nat.zero_le _, le_rfl, fun h => absurd h (Nat.lt_irrefl _)⟩
  | call _ hi hr ih =>
    obtain ⟨g, hs, -⟩ := hi.within ih
    have g' := hr.within g hs
    exact ⟨g'.pos_le, g'.last_le, g'.bend_eq⟩

/-- The iterations that a run of the loop makes, the last of which returns. -/
theorem readLoop_iterates {k : ℕ} (hi : Iterates cf₀ n cf s)
    (h : readLoop k cf s = some (rc, cf', s')) :
    ∃ m cf₁ s₁, Iterates cf₀ m cf₁ s₁ ∧ Returns cf₁ s₁ rc cf' s' := by
  induction k generalizing n cf s with
  | zero => cases h
  | succ k ih =>
    rw [readLoop] at h
    cases hf : fill cf s with
    | ret rc₁ cf₁ s₁ =>
      rw [hf] at h
      cases h
      exact ⟨n, cf, s, hi, .fill cf.file.pread hf⟩
    | more cf₁ s₁ =>
      rw [hf] at h
      dsimp only at h
      cases ht : turn cf₁.buffer.mem cf₁.buffer.pos s₁ with
      | next s₂ =>
        rw [ht] at h
        exact ih (.next cf.file.pread hi hf ht) h
      | ret rc₂ s₂ =>
        rw [ht] at h
        cases h
        exact ⟨n, cf, s, hi, .turn cf.file.pread hf ht⟩

theorem Called.readToken {t : Token} (hc : Called cf) (h : readToken cf = some (t, cf')) :
    Called cf' := by
  rw [Conf.readToken] at h
  cases hrun : readLoop (cf.remaining + 1) cf (Scan.init cf.buffer.pos cf.line) with
  | none =>
    rw [hrun] at h
    cases h
  | some p =>
    obtain ⟨rc, cf₁, s⟩ := p
    rw [hrun] at h
    cases h
    obtain ⟨m, cf₂, s₂, hi, hr⟩ := readLoop_iterates .start hrun
    exact .call hc hi hr

end Scan

section Ends

variable {σ : Type} {modules : List (Module σ)} {r : Run σ} {k n : ℕ}

/-- The calls of `parse("")` return where less than `n` bytes remain. -/
def NestedEnds (parse : Scope → Run σ → Option (Rv × Run σ)) (n : ℕ) : Prop :=
  ∀ scope r, r.cf.Bounded → r.cf.remaining < n →
    ∃ rv r', parse scope r = some (rv, r') ∧ Kept r r'

/-- A setter ends, whatever it makes of what its calls of `parse("")` return. -/
theorem Setter.run_ends {parse : Scope → Run σ → Option (Rv × Run σ)} (hparse : NestedEnds parse n)
    (s : Setter σ) (hb : r.cf.Bounded) (hn : r.cf.remaining < n) :
    ∃ rv r', s.run parse r = some (rv, r') ∧ Kept r r' := by
  induction s generalizing r with
  | done rv st => exact ⟨rv, _, rfl, hb, rfl, le_rfl⟩
  | parse scope st k ih =>
    obtain ⟨rv₁, r₁, hrun, hkept⟩ := hparse scope { r with st := st } hb hn
    obtain ⟨rv₂, r₂, hrun₂, hkept₂⟩ := ih rv₁ r₁.st hkept.bounded (hkept.remaining_le.trans_lt hn)
    have hfirst : Kept r r₁ := ⟨hkept.bounded, hkept.fd, hkept.remaining_le⟩
    refine ⟨rv₂, r₂, ?_, hfirst.trans hkept₂⟩
    rw [Setter.run, hrun]
    exact hrun₂

variable (modules) in
theorem handle_ends {parse : Scope → Run σ → Option (Rv × Run σ)} (hparse : NestedEnds parse n)
    (scope : Scope) (depth : ℕ) (last : Rc) (args : List Bytes) (hb : r.cf.Bounded)
    (hn : r.cf.remaining < n) :
    ∃ rv r', handle modules parse scope depth last args r = some (rv, r') ∧ Kept r r' := by
  simp only [handle]
  cases findCommand scope (args.headD []) false (allCommands modules) with
  | error e => exact ⟨_, _, rfl, hb, rfl, le_rfl⟩
  | ok p =>
    obtain ⟨mod, cmd⟩ := p
    dsimp only
    cases checkCommand cmd last args (args.headD []) with
    | some e => exact ⟨_, _, rfl, hb, rfl, le_rfl⟩
    | none =>
      obtain ⟨rv, r', hrun, hkept⟩ := Setter.run_ends hparse
        (cmd.set ⟨args, scope, confSlot mod cmd scope r.st⟩ r.st)
        (r := r.see (.call depth cmd.isBlock args)) hb hn
      have hkept' : Kept r r' := ⟨hkept.bounded, hkept.fd, hkept.remaining_le⟩
      rw [hrun]
      cases rv with
      | ok => exact ⟨_, _, rfl, hkept'⟩
      | error => exact ⟨_, _, rfl, hkept'⟩
      | text msg => exact ⟨_, _, rfl, hkept'.bounded, hkept'.fd, hkept'.remaining_le⟩

/-- A directive is handled, and the loop goes on if that returns `CONF_OK`. -/
theorem directive_ends (scope : Scope) {kind : Kind} {depth : ℕ} {rc : Rc} {args : List Bytes}
    (hloop : ∀ kind depth scope (r : Run σ), r.cf.Bounded → r.cf.remaining < k →
      ∃ rv r', parseLoop modules k kind depth scope r = some (rv, r') ∧ Kept r r')
    (hb : r.cf.Bounded) (hk : r.cf.remaining < k) :
    ∃ rv r', (match handle modules
        (fun scope r => parseLoop modules k (.nested r.cf) (depth + 1) scope r)
        scope depth rc args r with
      | none => none
      | some (.ok, r) => parseLoop modules k kind depth scope r
      | some (_, r) => some (.error, r)) = some (rv, r') ∧ Kept r r' := by
  have hnested : NestedEnds
      (fun scope r => parseLoop modules k (.nested r.cf) (depth + 1) scope r) k :=
    fun scope r => hloop _ _ scope r
  obtain ⟨rv₁, r₁, hrun, hkept⟩ := handle_ends modules hnested scope depth rc args hb hk
  rw [hrun]
  cases rv₁ with
  | ok =>
    obtain ⟨rv₂, r₂, hrun₂, hkept₂⟩ := hloop kind depth scope r₁ hkept.bounded
      (hkept.remaining_le.trans_lt hk)
    exact ⟨rv₂, r₂, hrun₂, hkept.trans hkept₂⟩
  | error => exact ⟨_, _, rfl, hkept⟩
  | text msg => exact ⟨_, _, rfl, hkept⟩

/-- The loop of `parse` ends: each token but the last takes a byte. -/
theorem parseLoop_ends (modules : List (Module σ)) (k : ℕ) (kind : Kind) (depth : ℕ)
    (scope : Scope) (r : Run σ) (hb : r.cf.Bounded) (hk : r.cf.remaining < k) :
    ∃ rv r', parseLoop modules k kind depth scope r = some (rv, r') ∧ Kept r r' := by
  induction k generalizing kind depth scope r with
  | zero => omega
  | succ k ih =>
    obtain ⟨t, cf, hread, hkept, hlt, -⟩ := readToken_kept hb
    obtain ⟨r₁, hr₁⟩ : ∃ r₁, r₁ = { r with cf := cf }.see (.token depth t) := ⟨_, rfl⟩
    have hkept₁ : Kept r r₁ := by
      rw [hr₁]
      exact ⟨hkept.bounded, hkept.fd, hkept.remaining_le⟩
    have hsee : ∀ o, Kept r (r₁.see o) := fun o =>
      ⟨hkept₁.bounded, hkept₁.fd, hkept₁.remaining_le⟩
    have hless : t.rc = .ok ∨ t.rc = .blockStart → r₁.cf.remaining < k := fun ht => by
      have hcf : r₁.cf = cf := by rw [hr₁]; rfl
      have := hlt (ht.imp id .inl)
      rw [hcf]
      omega
    rw [parseLoop, hread]
    dsimp only
    rw [← hr₁]
    cases hrc : t.rc with
    | error e => exact ⟨_, _, rfl, hkept₁⟩
    | blockDone =>
      by_cases hkind : kind = .block
      · exact ⟨_, _, if_neg (not_not.mpr hkind), hkept₁⟩
      · exact ⟨_, _, if_pos hkind, hsee _⟩
    | fileDone =>
      by_cases hkind : kind = .block
      · exact ⟨_, _, if_pos hkind, hsee _⟩
      · exact ⟨_, _, if_neg hkind, hkept₁⟩
    | ok =>
      obtain ⟨rv, r₂, hrun, hkept₂⟩ := directive_ends scope ih hkept₁.bounded
        (hless (.inl hrc))
      exact ⟨rv, r₂, hrun, hkept₁.trans hkept₂⟩
    | blockStart =>
      by_cases hkind : kind = .param
      · exact ⟨_, _, if_pos ⟨rfl, hkind⟩, hsee _⟩
      · obtain ⟨rv, r₂, hrun, hkept₂⟩ := directive_ends scope ih hkept₁.bounded
          (hless (.inr hrc))
        exact ⟨rv, r₂, (if_neg fun h => hkind h.2).trans hrun, hkept₁.trans hkept₂⟩

theorem parseFile_ends (modules : List (Module σ)) (o : Opened) (filename : Bytes) (scope : Scope)
    (st : σ) : ∃ rv r, parseFile modules o filename scope st = some (rv, r) := by
  rw [parseFile]
  split_ifs
  · exact ⟨_, _, rfl⟩
  · exact ⟨_, _, rfl⟩
  · obtain ⟨rv, r, hrun, -⟩ := parseLoop_ends modules _ .file 0 scope
      ⟨.opened o.fd filename (o.stat.getD 0) o.pread, st, []⟩
      (ConfFile.bounded_opened ..) (Nat.lt_succ_self _)
    exact ⟨rv, r, hrun⟩

theorem param_ends (modules : List (Module σ)) (text : Bytes) (scope : Scope) (st : σ) :
    ∃ rv r, param modules text scope st = some (rv, r) := by
  rw [param]
  split_ifs
  · exact ⟨_, _, rfl⟩
  · obtain ⟨rv, r, hrun, -⟩ := parseLoop_ends modules _ .param 0 scope ⟨.param text, st, []⟩
      (ConfFile.bounded_param text) (Nat.lt_succ_self _)
    exact ⟨rv, r, hrun⟩

end Ends

/-- The scan is bounded and ends. In every iteration of every call of `read_token_` the
pointers are in their order, before the refill and behind it; a refill asks for at least
one byte and at most for the free room; no call has more iterations that go on than
there are bytes that remain, and each call returns. `parse` ends on every file and for
every `-g` option. -/
theorem scan_bounded_ends :
    (∀ cf, Called cf → (∀ n cf' s, Iterates cf n cf' s →
        Pointers cf' s ∧ n ≤ cf.remaining ∧
        (∀ len size, Asks cf' s len size → 1 ≤ size ∧ len + size ≤ cf'.buffer.bend) ∧
        ∀ pread cf'' s'', fill (cf'.withPread pread) s = .more cf'' s'' →
          Pointers cf'' s'' ∧ cf''.buffer.pos < cf''.buffer.last) ∧
      ∃ t cf', readToken cf = some (t, cf') ∧ Called cf') ∧
    ∀ (σ : Type) (modules : List (Module σ)) (scope : Scope) (st : σ),
      (∀ o filename, ∃ rv r, parseFile modules o filename scope st = some (rv, r)) ∧
      ∀ text, ∃ rv r, param modules text scope st = some (rv, r) := by
  refine ⟨fun cf hc => ⟨fun n cf' s hi => ?_, ?_⟩, fun σ modules scope st =>
    ⟨fun o filename => parseFile_ends modules o filename scope st,
      fun text => param_ends modules text scope st⟩⟩
  · obtain ⟨g, hs, hn⟩ := hi.within hc.within
    refine ⟨⟨hs, g.pos_le, g.last_le⟩, by omega, fun len size ha => ha.bounds g, ?_⟩
    intro pread cf'' s'' hf
    obtain ⟨g₁, hs₁, hlt, -⟩ := fill_more (g.withPread pread) hs hf
    exact ⟨⟨hs₁, g₁.pos_le, g₁.last_le⟩, hlt⟩
  · obtain ⟨t, cf', hread, -⟩ := readToken_kept (r := ⟨cf, (), []⟩) hc.within.bounded
    exact ⟨t, cf', hread, hc.readToken hread⟩

/-- A file of five bytes by its size, and three when it is read. -/
theorem scan_bounded_ends_short :
    let cf : ConfFile := .opened 3 [] 5 fun _ _ => some [0x61, 0x62, 0x3b]
    Pointers cf (Scan.init cf.buffer.pos cf.line) ∧
      ∃ size, Asks cf (Scan.init cf.buffer.pos cf.line) 0 size ∧ 1 ≤ size ∧ size ≤ 4096 := by
  intro cf
  have hc : Called cf := .opened ..
  obtain ⟨hp, -, hasks, -⟩ := (scan_bounded_ends.1 cf hc).1 0 cf _ .start
  have ha : Asks cf (Scan.init cf.buffer.pos cf.line) 0 5 :=
    ⟨le_rfl, by decide, rfl, by decide, by decide⟩
  obtain ⟨hone, hroom⟩ := hasks 0 5 ha
  exact ⟨hp, 5, ha, hone, by omega⟩

end Lingx.Conf

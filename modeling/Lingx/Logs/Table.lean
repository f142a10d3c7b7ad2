import Lingx.Library.Descriptors
import Lingx.Logs.Configure
import Lingx.Logs.OpenFiles

/-! The open files of a cycle in the process that opens them. What `open()` returns for a log is
the lowest descriptor that is free. The open files of the cycle are the descriptors that the logs
have taken, whatever the table was in the beginning: a file with a name is open on its
descriptor, and all other descriptors are as they were. -/

namespace Lingx.Logs

open Library

/-- What a descriptor is open on: what the process was started with, or a file that it has
opened. -/
inductive Handle where
  | started (fd : ℤ)
  | named (path : Bytes)
  deriving DecidableEq, Repr

/-- The descriptors of a process and the logs of the cycle that it configures. -/
structure Boot where
  files : Descriptors Handle
  logs : LogCycle

/-- What `open()` returns for a file that can be opened or not. -/
def openRc (files : Descriptors Handle) (canOpen : Bool) : ℤ :=
  if canOpen then files.lowest.getD (-1) else -1

/-- The descriptors behind a call of `log_open_file`, which has called `open()` or not. -/
def openedFiles (env : Env) (o o' : Opened) (name : Bytes) (files : Descriptors Handle) :
    Descriptors Handle :=
  if o'.opens = o.opens ∨ env.openRc o.opens = -1 then files
  else files.set (env.openRc o.opens) (some (.named (getFullName env.prefix_ name)))

/-- The names that the logs are opened with. -/
structure LogPaths where
  prefix_ : Bytes
  errorLogPath : Bytes
  deriving DecidableEq, Repr

def LogPaths.env (p : LogPaths) (files : Descriptors Handle) (canOpen : Bool) : Env :=
  ⟨p.prefix_, p.errorLogPath, fun _ => openRc files canOpen⟩

/-- A directive `error_log`, and whether its file can be opened. -/
structure Directive where
  args : List Bytes
  canOpen : Bool
  deriving DecidableEq, Repr

/-- `Error_log` in a process. -/
def Boot.errorLog (p : LogPaths) (s : Boot) (d : Directive) : Except LogError Boot := do
  let env := p.env s.files d.canOpen
  let logs ← logSetLog env 0 d.args s.logs
  .ok ⟨openedFiles env s.logs.opened logs.opened (fileName (d.args.getD 1 [])) s.files, logs⟩

/-- `Cycle::log_open_default_` in a process. -/
def Boot.openDefault (p : LogPaths) (canOpen : Bool) (s : Boot) : Boot :=
  let env := p.env s.files canOpen
  let logs := logOpenDefault env s.logs
  ⟨openedFiles env s.logs.opened logs.opened p.errorLogPath s.files, logs⟩

/-- The open files of a cycle are what a table has got since it was `t`, apart from a descriptor
that is open meanwhile. -/
structure Held (t : Descriptors Handle) (extra : Option ℤ) (files : Descriptors Handle)
    (openFiles : List OpenFile) : Prop where
  kept : t.Extends files
  fd_inj : ∀ f ∈ openFiles, ∀ g ∈ openFiles, f.fd = g.fd → f = g
  name_inj : ∀ f ∈ openFiles, ∀ g ∈ openFiles, f.name = g.name → f = g
  unnamed : ∀ f ∈ openFiles, f.name = [] → f.fd = STDERR_FILENO
  named : ∀ f ∈ openFiles, f.name ≠ [] →
    files.file f.fd = some (.named f.name) ∧ t.file f.fd = none ∧ some f.fd ≠ extra
  extra_open : ∀ d ∈ extra, (files.file d).isSome ∧ t.file d = none
  rest : ∀ d, (∀ f ∈ openFiles, f.fd ≠ d) → extra ≠ some d → files.file d = t.file d

variable {t files files' : Descriptors Handle} {extra : Option ℤ} {o o' : Opened} {env : Env}
  {name : Bytes} {fs : List OpenFile} {f : OpenFile} {d : ℤ}

theorem held_init (t : Descriptors Handle) : Held t none t [] where
  kept := .refl t
  fd_inj _ hf := absurd hf List.not_mem_nil
  name_inj _ hf := absurd hf List.not_mem_nil
  unnamed _ hf := absurd hf List.not_mem_nil
  named _ hf := absurd hf List.not_mem_nil
  extra_open d hd := absurd hd (Option.not_mem_none d)
  rest _ _ _ := rfl

/-- A key that is different for all files is different with one more, whose key is new. -/
theorem inj_concat {β : Type} {key : OpenFile → β} {x : OpenFile}
    (h : ∀ f ∈ fs, ∀ g ∈ fs, key f = key g → f = g) (hx : ∀ f ∈ fs, key f ≠ key x) :
    ∀ f ∈ fs ++ [x], ∀ g ∈ fs ++ [x], key f = key g → f = g := by
  intro f hf g hg heq
  rcases List.mem_append.mp hf with hf | hf <;> rcases List.mem_append.mp hg with hg | hg
  · exact h f hf g hg heq
  · rw [List.mem_singleton.mp hg] at heq
    exact absurd heq (hx f hf)
  · rw [List.mem_singleton.mp hf] at heq
    exact absurd heq.symm (hx g hg)
  · exact (List.mem_singleton.mp hf).trans (List.mem_singleton.mp hg).symm

namespace Held

/-- A descriptor that is free is not that of a file with a name. -/
theorem name_eq_nil (g : Held t extra files fs) (hd : files.file d = none) (hf : f ∈ fs)
    (hfd : f.fd = d) : f.name = [] := by
  by_contra hne
  have hopen := (g.named f hf hne).1
  rw [hfd, hd] at hopen
  cases hopen

theorem addStderr (g : Held t extra files fs) (hnew : ∀ f ∈ fs, f.fd ≠ STDERR_FILENO) :
    Held t extra files (fs ++ [⟨STDERR_FILENO, []⟩]) := by
  have hname : ∀ f ∈ fs, f.name ≠ [] := fun f hf hnil => hnew f hf (g.unnamed f hf hnil)
  refine ⟨g.kept, inj_concat g.fd_inj hnew, inj_concat g.name_inj hname, ?_, ?_, g.extra_open,
    fun d hd => ?_⟩
  · exact List.forall_mem_append.mpr ⟨g.unnamed, List.forall_mem_singleton.mpr fun _ => rfl⟩
  · exact List.forall_mem_append.mpr ⟨g.named, List.forall_mem_singleton.mpr fun h => absurd rfl h⟩
  · exact g.rest d fun f hf => hd f (List.mem_append_left _ hf)

/-- A file that is opened on a descriptor that no open file has. -/
theorem add (g : Held t extra files fs) (hd : files.file d = none) (hnew : ∀ f ∈ fs, f.fd ≠ d)
    {n : Bytes} (hn : n ≠ []) (hname : ∀ f ∈ fs, f.name ≠ n) :
    Held t extra (files.set d (some (.named n))) (fs ++ [⟨d, n⟩]) := by
  have hextra : some d ≠ extra := by
    rintro rfl
    have hopen := (g.extra_open d rfl).1
    rw [hd] at hopen
    cases hopen
  have ht : t.file d = none := by
    rw [← g.rest d hnew hextra.symm, hd]
  refine ⟨g.kept.trans (Descriptors.extends_set hd), inj_concat g.fd_inj hnew,
    inj_concat g.name_inj hname, ?_, ?_, fun e he => ?_, fun e he hne => ?_⟩
  · exact List.forall_mem_append.mpr ⟨g.unnamed, List.forall_mem_singleton.mpr fun h => absurd h hn⟩
  · refine List.forall_mem_append.mpr ⟨fun f hf hne => ?_,
      List.forall_mem_singleton.mpr fun _ => ⟨Descriptors.set_file_self, ht, hextra⟩⟩
    rw [Descriptors.set_file_of_ne (hnew f hf)]
    exact g.named f hf hne
  · have hne : e ≠ d := fun h => hextra (h ▸ he.symm)
    rw [Descriptors.set_file_of_ne hne]
    exact g.extra_open e he
  · have hed : e ≠ d := fun h => he _ (List.mem_append_right _ List.mem_cons_self) h.symm
    rw [Descriptors.set_file_of_ne hed]
    exact g.rest e (fun f hf => he f (List.mem_append_left _ hf)) hne

/-- A file that is opened where stderr was free, and that is kept as the file of stderr. -/
theorem reuse (g : Held t extra files fs) (hd : files.file d = none) (hf : f ∈ fs)
    (hfd : f.fd = d) {x : Handle} : Held t extra (files.set d (some x)) fs := by
  have hnil := g.name_eq_nil hd hf hfd
  have hother : ∀ f' ∈ fs, f'.name ≠ [] → f'.fd ≠ d := by
    rintro f' hf' hne rfl
    exact hne (g.name_eq_nil hd hf' rfl)
  refine ⟨g.kept.trans (Descriptors.extends_set hd), g.fd_inj, g.name_inj, g.unnamed,
    fun f' hf' hne => ?_, fun e he => ?_, fun e he hne => ?_⟩
  · rw [Descriptors.set_file_of_ne (hother f' hf' hne)]
    exact g.named f' hf' hne
  · have hne : e ≠ d := by
      rintro rfl
      have hopen := (g.extra_open e he).1
      rw [hd] at hopen
      cases hopen
    rw [Descriptors.set_file_of_ne hne]
    exact g.extra_open e he
  · have hed : e ≠ d := fun h => he f hf (hfd.trans h.symm)
    rw [Descriptors.set_file_of_ne hed]
    exact g.rest e he hne

/-- A call of `log_open_file` opens its file, or has it already, or returns none. -/
theorem logOpenFile (g : Held t extra files o.openFiles) {canOpen : Bool}
    (henv : env.openRc o.opens = openRc files canOpen) {file : Option OpenFile}
    (h : logOpenFile env o name = (file, o')) :
    Held t extra (openedFiles env o o' name files) o'.openFiles ∧
      (∀ f ∈ o.openFiles, f ∈ o'.openFiles) ∧ ∀ f ∈ file, f ∈ o'.openFiles := by
  rcases logOpenFile_cases env o name with
    ⟨hn, h'⟩ | ⟨hn, f, hf, -, h'⟩ | ⟨hn, hnew, ⟨hrc, h'⟩ | ⟨hrc, h'⟩⟩
  · rw [h] at h'
    rcases fileOf_cases o STDERR_FILENO [] with ⟨f, hf, -, h''⟩ | ⟨hnew, h''⟩
    · obtain ⟨rfl, rfl⟩ := Prod.mk.inj (h'.trans h'')
      rw [openedFiles, if_pos (.inl rfl)]
      exact ⟨g, fun _ hf => hf, fun f' hf' => Option.mem_some_iff.mp hf' ▸ hf⟩
    · obtain ⟨rfl, rfl⟩ := Prod.mk.inj (h'.trans h'')
      rw [openedFiles, if_pos (.inl rfl)]
      exact ⟨g.addStderr hnew, fun _ hf => List.mem_append_left _ hf, fun f' hf' =>
        Option.mem_some_iff.mp hf' ▸ List.mem_append_right _ List.mem_cons_self⟩
  · obtain ⟨rfl, rfl⟩ := Prod.mk.inj (h.symm.trans h')
    rw [openedFiles, if_pos (.inl rfl)]
    exact ⟨g, fun _ hf => hf, fun f' hf' => Option.mem_some_iff.mp hf' ▸ hf⟩
  · obtain ⟨rfl, rfl⟩ := Prod.mk.inj (h.symm.trans h')
    rw [openedFiles, if_pos (.inr hrc)]
    exact ⟨g, fun _ hf => hf, fun f' hf' => absurd hf' (Option.not_mem_none f')⟩
  · have hfree : files.file (env.openRc o.opens) = none := by
      rw [henv, openRc] at hrc ⊢
      split_ifs at hrc ⊢
      · cases hl : files.lowest with
        | none => exact absurd (by rw [hl]; rfl) hrc
        | some d => exact (Descriptors.lowest_spec hl).2.2.1
      · exact absurd rfl hrc
    have hopens : o'.opens = o.opens + 1 := by
      have := (fileOf_opens { o with opens := o.opens + 1 } (env.openRc o.opens)
        (getFullName env.prefix_ name)).2
      rwa [← h', h] at this
    rw [openedFiles, if_neg (by rw [hopens]; exact not_or.mpr ⟨Nat.succ_ne_self _, hrc⟩)]
    rw [h] at h'
    rcases fileOf_cases { o with opens := o.opens + 1 } (env.openRc o.opens)
      (getFullName env.prefix_ name) with ⟨f, hf, hfd, h''⟩ | ⟨hfd, h''⟩
    · obtain ⟨rfl, rfl⟩ := Prod.mk.inj (h'.trans h'')
      exact ⟨g.reuse hfree hf hfd, fun _ hf => hf, fun f' hf' => Option.mem_some_iff.mp hf' ▸ hf⟩
    · obtain ⟨rfl, rfl⟩ := Prod.mk.inj (h'.trans h'')
      exact ⟨g.add hfree hfd (getFullName_ne_nil _ hn) hnew,
        fun _ hf => List.mem_append_left _ hf, fun f' hf' =>
          Option.mem_some_iff.mp hf' ▸ List.mem_append_right _ List.mem_cons_self⟩

end Held

section Logs

variable {s s' : LogCycle} {a n : ℕ}

/-- The file of a log. -/
def HasFile (s : LogCycle) (f : OpenFile) : Prop := ∃ a, (s.log a).file = some f

theorem setLog_log (s : LogCycle) (b : ℕ) (l : Log) (a : ℕ) :
    (s.setLog b l).log a = if a = b then l else s.log a := Function.update_apply ..

theorem hasFile_setLog {l : Log} (h : HasFile (s.setLog a l) f) : l.file = some f ∨ HasFile s f := by
  obtain ⟨b, hb⟩ := h
  rw [setLog_log] at hb
  split_ifs at hb
  · exact .inl hb
  · exact .inr ⟨b, hb⟩

theorem hasFile_setLevel {level : Level} (h : HasFile (s.setLevel a level) f) : HasFile s f :=
  (hasFile_setLog h).elim (fun h => ⟨a, h⟩) id

theorem hasFile_setFile {file : Option OpenFile} (h : HasFile (s.setFile a file) f) :
    file = some f ∨ HasFile s f :=
  hasFile_setLog h

theorem setNext_file (s : LogCycle) (b : ℕ) (next : Option ℕ) (a : ℕ) :
    ((s.setNext b next).log a).file = (s.log a).file := by
  unfold LogCycle.setNext
  rw [setLog_log]
  split_ifs with h
  · rw [h]
  · rfl

theorem logInsertLoop_file (k : ℕ) (s : LogCycle) (b n a : ℕ) :
    ((logInsertLoop k s b n).log a).file = (s.log a).file := by
  induction k generalizing b with
  | zero => rfl
  | succ k ih =>
    rw [logInsertLoop]
    split
    · exact setNext_file s b _ a
    · split_ifs
      · rw [setNext_file, setNext_file]
      · exact ih _

theorem hasFile_logInsert {b : ℕ} (h : HasFile (logInsert s b n) f) : HasFile s f := by
  obtain ⟨a, ha⟩ := h
  unfold logInsert at ha
  split_ifs at ha
  · rw [setNext_file] at ha
    rcases hasFile_setLog ⟨a, ha⟩ with h | h
    · exact ⟨b, h⟩
    · exact (hasFile_setLog h).elim (fun h => ⟨n, h⟩) id
  · rw [logInsertLoop_file] at ha
    exact ⟨a, ha⟩

theorem hasFile_makeLog (h : HasFile s.makeLog.2 f) : HasFile s f := by
  have hset : HasFile (s.setLog s.logN {}) f := h
  rcases hasFile_setLog hset with h | h
  · cases h
  · exact h

theorem newLog_hasFile (s : LogCycle) (p : Prop) [Decidable p] : ∃ b v,
    (if p then (0, s) else s.makeLog) = (b, v) ∧ v.opened = s.opened ∧
      ∀ f, HasFile v f → HasFile s f := by
  split_ifs
  · exact ⟨0, s, rfl, rfl, fun _ h => h⟩
  · exact ⟨_, _, rfl, rfl, fun _ => hasFile_makeLog⟩

theorem hasFile_insertNew {p : Prop} [Decidable p] {b c : ℕ}
    (h : HasFile (if p then logInsert s b c else s) f) : HasFile s f := by
  split_ifs at h
  · exact hasFile_logInsert h
  · exact h

theorem insertNew_opened {p : Prop} [Decidable p] {b c : ℕ} :
    (if p then logInsert s b c else s).opened = s.opened := by
  split_ifs
  · exact logInsert_opened s b c
  · rfl

/-- A directive makes one call of `log_open_file`, and gives what it returns to a log. -/
theorem logSetLog_file {args : List Bytes} (h : logSetLog env 0 args s = .ok s') :
    ∃ file, logOpenFile env s.opened (fileName (args.getD 1 [])) = (file, s'.opened) ∧
      ∀ f, HasFile s' f → file = some f ∨ HasFile s f := by
  unfold logSetLog at h
  split at h
  · rename_i file levels
    obtain ⟨b, v, hnew, hv, hvfile⟩ := newLog_hasFile s ((s.log 0).level = STDERR)
    rw [hnew] at h
    obtain ⟨u, hu, hins⟩ := bind_eq_ok.mp h
    obtain ⟨f, level, hf, -, -, hlog⟩ := logSetFields_ok hu
    rw [hv] at hf
    obtain rfl := pure_eq_ok.mp hins
    refine ⟨f, ?_, fun g hg => ?_⟩
    · rw [insertNew_opened]
      exact directiveFile_ok hf
    · obtain ⟨a, ha⟩ := hasFile_insertNew hg
      rw [hlog] at ha
      rcases eq_or_ne a b with rfl | hne
      · rw [Function.update_self] at ha
        exact .inl ha
      · rw [Function.update_of_ne hne] at ha
        exact .inr (hvfile g ⟨a, ha⟩)
  · cases h

theorem logOpenDefault_file (env : Env) (s : LogCycle) :
    logOpenDefault env s = s ∨
      ∃ file, logOpenFile env s.opened env.errorLogPath = (file, (logOpenDefault env s).opened) ∧
        ∀ f, HasFile (logOpenDefault env s) f → file = some f ∨ HasFile s f := by
  unfold logOpenDefault
  by_cases hfile : (getFileLog s s.logN (some 0)).isSome
  · exact .inl (if_pos hfile)
  · refine .inr ⟨(logOpenFile env s.opened env.errorLogPath).1, ?_⟩
    obtain ⟨b, v, hnew, hv, hvfile⟩ := newLog_hasFile s (¬ (s.log 0).level ≠ STDERR)
    rw [ite_not] at hnew
    rw [if_neg hfile, hnew]
    dsimp only
    have hopened : (v.setLevel b ERROR).opened = s.opened := hv
    rw [hopened, insertNew_opened]
    refine ⟨rfl, fun f hf => ?_⟩
    rcases hasFile_setFile (hasFile_insertNew hf) with h | h
    · exact .inl h
    · exact .inr (hvfile f (hasFile_setLevel h))

end Logs

/-- What `Init_new_cycle` does with the descriptors of the process keeps this: the open files are
on the table, and the files of the logs are open files. -/
structure Boot.Good (t : Descriptors Handle) (extra : Option ℤ) (s : Boot) : Prop where
  held : Held t extra s.files s.logs.opened.openFiles
  mem : ∀ f, HasFile s.logs f → f ∈ s.logs.opened.openFiles

namespace Boot

variable {p : LogPaths} {s s' : Boot} {canOpen : Bool}

theorem good_init (t : Descriptors Handle) : Good t none ⟨t, .init⟩ where
  held := held_init t
  mem f hf := by
    obtain ⟨a, ha⟩ := hf
    cases ha

theorem Good.opened (g : Good t extra s) {logs : LogCycle} {file : Option OpenFile}
    (hfile : Logs.logOpenFile (p.env s.files canOpen) s.logs.opened name = (file, logs.opened))
    (hlogs : ∀ f, HasFile logs f → file = some f ∨ HasFile s.logs f) :
    Good t extra
      ⟨openedFiles (p.env s.files canOpen) s.logs.opened logs.opened name s.files, logs⟩ := by
  obtain ⟨held, hold, hnew⟩ := g.held.logOpenFile rfl hfile
  refine ⟨held, fun f hf => ?_⟩
  rcases hlogs f hf with h | h
  · exact hnew f h
  · exact hold f (g.mem f h)

theorem Good.errorLog (g : Good t extra s) {d : Directive} (h : s.errorLog p d = .ok s') :
    Good t extra s' := by
  obtain ⟨logs, hlogs, h⟩ := bind_eq_ok.mp h
  cases h
  obtain ⟨file, hfile, hmem⟩ := logSetLog_file hlogs
  exact g.opened hfile hmem

theorem Good.errorLogs (g : Good t extra s) {ds : List Directive}
    (h : ds.foldlM (Boot.errorLog p) s = .ok s') : Good t extra s' := by
  induction ds generalizing s with
  | nil => exact pure_eq_ok.mp h ▸ g
  | cons d ds ih =>
    obtain ⟨u, hu, h⟩ := foldlM_cons_eq_ok.mp h
    exact ih (g.errorLog hu) h

theorem Good.openDefault (g : Good t extra s) : Good t extra (s.openDefault p canOpen) := by
  unfold Boot.openDefault
  dsimp only
  rcases logOpenDefault_file (p.env s.files canOpen) s.logs with h | ⟨file, hfile, hmem⟩
  · rw [h, openedFiles, if_pos (.inl rfl)]
    exact g
  · exact g.opened hfile hmem

theorem Good.openFile (g : Good t none s) {x : Handle} (h : s.files.openFile x = some (d, files')) :
    Good t (some d) { s with files := files' } := by
  obtain ⟨hlow, rfl⟩ := Descriptors.openFile_eq_some.mp h
  have hfree := (Descriptors.lowest_spec hlow).2.2.1
  have hd : t.file d = none := by
    cases ht : t.file d with
    | none => rfl
    | some y => rw [← hfree, g.held.kept d y ht]
  refine ⟨⟨g.held.kept.trans (Descriptors.extends_set hfree), g.held.fd_inj, g.held.name_inj,
    g.held.unnamed, fun f hf hne => ?_, fun e he => ?_, fun e he hne => ?_⟩, g.mem⟩
  · obtain ⟨hopen, ht, -⟩ := g.held.named f hf hne
    have hfd : f.fd ≠ d := by
      rintro rfl
      rw [hfree] at hopen
      cases hopen
    exact ⟨by rw [Descriptors.set_file_of_ne hfd, hopen], ht, fun h => hfd (Option.some.inj h)⟩
  · obtain rfl := Option.mem_some_iff.mp he
    exact ⟨by rw [Descriptors.set_file_self]; rfl, hd⟩
  · have hed : e ≠ d := fun h => hne (congrArg some h.symm)
    rw [Descriptors.set_file_of_ne hed]
    exact g.held.rest e he (fun h => absurd h.symm (Option.some_ne_none e))

theorem Good.close (g : Good t (some d) s) (h : s.files.close d = some files') :
    Good t none { s with files := files' } := by
  obtain ⟨-, rfl⟩ := Descriptors.close_eq_some.mp h
  have hd := (g.held.extra_open d rfl).2
  refine ⟨⟨fun e x hx => ?_, g.held.fd_inj, g.held.name_inj, g.held.unnamed,
    fun f hf hne => ?_, fun e he => absurd he (Option.not_mem_none e), fun e he _ => ?_⟩, g.mem⟩
  · have hed : e ≠ d := by
      rintro rfl
      rw [hd] at hx
      cases hx
    rw [Descriptors.set_file_of_ne hed]
    exact g.held.kept e x hx
  · obtain ⟨hopen, ht, hfd⟩ := g.held.named f hf hne
    have hfd : f.fd ≠ d := fun h => hfd (congrArg some h)
    exact ⟨by rw [Descriptors.set_file_of_ne hfd, hopen], ht, Option.some_ne_none _⟩
  · by_cases hed : e = d
    · rw [hed, Descriptors.set_file_self, hd]
    · rw [Descriptors.set_file_of_ne hed]
      exact g.held.rest e he fun h => hed (Option.some.inj h).symm

end Boot

end Lingx.Logs

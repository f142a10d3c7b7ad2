import Lingx.Logs.OpenFiles
import Mathlib.Data.List.Nodup

/-! The log files of a cycle are shared. Two searches with different keys guard the list
of the open files, one for the name before `open()` and one for the descriptor behind
it; the invariant says that both keys are unique, and that each entry with a name goes
back to exactly one successful `open()`. -/

namespace Lingx.Logs

/-- A call of `log_open_file`: its name, the file it returns, and what `open()` returned
if the call has made one. -/
structure OpenCall where
  name : Bytes
  file : Option OpenFile
  outcome : Option ℤ
  deriving DecidableEq, Repr

/-- A call of `log_open_file`, recorded. -/
def openCall (env : Env) (o : Opened) (name : Bytes) : OpenCall × Opened :=
  let (file, o') := logOpenFile env o name
  (⟨name, file, if o'.opens = o.opens then none else some (env.openRc o.opens)⟩, o')

/-- The name that a file is kept under. -/
def fileFullName (env : Env) (name : Bytes) : Bytes :=
  if name = [] then [] else getFullName env.prefix_ name

/-- `open()` fails or returns a descriptor that is neither stderr nor held by an entry. -/
def OpenFiles.Allows (files : List OpenFile) (fd : ℤ) : Prop :=
  fd = -1 ∨ fd ≠ STDERR_FILENO ∧ ∀ f ∈ files, f.fd ≠ fd

instance (files : List OpenFile) (fd : ℤ) : Decidable (OpenFiles.Allows files fd) :=
  inferInstanceAs (Decidable (_ ∨ _ ∧ ∀ f ∈ files, f.fd ≠ fd))

/-- The calls made on a new cycle. -/
inductive OpenRun (env : Env) : List OpenCall → Opened → Prop
  | init : OpenRun env [] {}
  | call {calls : List OpenCall} {o : Opened} (name : Bytes) (run : OpenRun env calls o)
      (allowed : ∀ fd ∈ (openCall env o name).1.outcome, OpenFiles.Allows o.openFiles fd) :
      OpenRun env (calls ++ [(openCall env o name).1]) (openCall env o name).2

/-- The call has opened the file with a full name. -/
def OpenCall.Opens (env : Env) (n : Bytes) (c : OpenCall) : Prop :=
  fileFullName env c.name = n ∧ ∃ fd ∈ c.outcome, fd ≠ -1

instance (env : Env) (n : Bytes) : DecidablePred (OpenCall.Opens env n) := fun c =>
  inferInstanceAs (Decidable (_ ∧ ∃ fd ∈ c.outcome, fd ≠ -1))

/-- The number of times that a file has been opened. -/
def timesOpened (env : Env) (n : Bytes) (calls : List OpenCall) : ℕ :=
  calls.countP (OpenCall.Opens env n ·)

variable {env : Env} {o : Opened} {calls : List OpenCall}

theorem fileFullName_eq_nil {name : Bytes} : fileFullName env name = [] ↔ name = [] := by
  rw [fileFullName]
  split_ifs with hn
  · simp [hn]
  · simp [hn, getFullName_ne_nil]

theorem fileFullName_of_ne {name : Bytes} (hn : name ≠ []) :
    fileFullName env name = getFullName env.prefix_ name := if_neg hn

/-- What a call does: it returns an entry for its full name, its `open()` fails, or it
adds an entry, for stderr or for a file it has opened. -/
inductive OpenCall.Does (env : Env) (o : Opened) (name : Bytes) : OpenCall → Opened → Prop
  | found (f : OpenFile) (hf : f ∈ o.openFiles) (hname : f.name = fileFullName env name) :
      Does env o name ⟨name, some f, none⟩ o
  | failed (hn : name ≠ []) (o' : Opened) (hfiles : o'.openFiles = o.openFiles) :
      Does env o name ⟨name, none, some (-1)⟩ o'
  | stderr (hn : name = []) (hnew : ∀ f ∈ o.openFiles, f.fd ≠ STDERR_FILENO) (o' : Opened)
      (hfiles : o'.openFiles = o.openFiles ++ [⟨STDERR_FILENO, []⟩]) :
      Does env o name ⟨name, some ⟨STDERR_FILENO, []⟩, none⟩ o'
  | opened (hn : name ≠ []) (fd : ℤ) (hfd : fd ≠ -1) (hstd : fd ≠ STDERR_FILENO)
      (hother : ∀ f ∈ o.openFiles, f.fd ≠ fd)
      (hnew : ∀ f ∈ o.openFiles, f.name ≠ fileFullName env name) (o' : Opened)
      (hfiles : o'.openFiles = o.openFiles ++ [⟨fd, fileFullName env name⟩]) :
      Does env o name ⟨name, some ⟨fd, fileFullName env name⟩, some fd⟩ o'

/-- The invariant: both keys of the list are unique, stderr is the one entry without a
name, what has been returned is an entry for the name, and an entry with a name has been
opened once. -/
structure Shared (env : Env) (calls : List OpenCall) (o : Opened) : Prop where
  descriptors : (o.openFiles.map (·.fd)).Nodup
  names : ((o.openFiles.map (·.name)).filter (· ≠ [])).Nodup
  stderr : ∀ f ∈ o.openFiles, f.name = [] ↔ f.fd = STDERR_FILENO
  returned : ∀ c ∈ calls, ∀ f ∈ c.file, f ∈ o.openFiles ∧ f.name = fileFullName env c.name
  answered : ∀ c ∈ calls, c.name = [] → c.file.isSome
  opened : ∀ n ≠ [], timesOpened env n calls = (o.openFiles.map (·.name)).count n

/-- With descriptors as `open()` may return them, a call does one of four things. -/
theorem openCall_does (g : ∀ f ∈ o.openFiles, f.name = [] ↔ f.fd = STDERR_FILENO) (name : Bytes)
    (allowed : ∀ fd ∈ (openCall env o name).1.outcome, OpenFiles.Allows o.openFiles fd) :
    OpenCall.Does env o name (openCall env o name).1 (openCall env o name).2 := by
  rcases logOpenFile_cases env o name with
    ⟨hn, h⟩ | ⟨hn, f, hf, hname, h⟩ | ⟨hn, hnew, ⟨hrc, h⟩ | ⟨hrc, h⟩⟩
  · rcases fileOf_cases o STDERR_FILENO [] with ⟨f, hf, hfd, h'⟩ | ⟨hnew, h'⟩
    · simp only [openCall, h, h', if_true]
      exact .found f hf (by rw [(g f hf).mpr hfd, fileFullName, if_pos hn])
    · simp only [openCall, h, h', if_true]
      exact .stderr hn hnew _ rfl
  · simp only [openCall, h, if_true]
    exact .found f hf (by rw [hname, fileFullName, if_neg hn])
  · simp only [openCall, h, hrc, if_neg (Nat.succ_ne_self _)]
    exact .failed hn _ rfl
  · rw [← fileFullName_of_ne hn] at h hnew
    have hout : (openCall env o name).1.outcome = some (env.openRc o.opens) := by
      simp [openCall, h, (fileOf_opens _ _ _).2]
    rcases allowed _ hout with hbad | ⟨hstd, hother⟩
    · exact absurd hbad hrc
    · rcases fileOf_cases { o with opens := o.opens + 1 } (env.openRc o.opens)
        (fileFullName env name) with ⟨f, hf, hfd, -⟩ | ⟨-, h'⟩
      · exact absurd hfd (hother f hf)
      · simp only [openCall, h, h', if_neg (Nat.succ_ne_self _)]
        exact .opened hn _ hrc hstd hother hnew _ rfl

theorem timesOpened_concat (n : Bytes) (calls : List OpenCall) (c : OpenCall) :
    timesOpened env n (calls ++ [c]) =
      timesOpened env n calls + if OpenCall.Opens env n c then 1 else 0 := by
  simp [timesOpened, List.countP_append, List.countP_cons]

theorem shared_init : Shared env [] {} where
  descriptors := List.nodup_nil
  names := List.nodup_nil
  stderr := nofun
  returned := nofun
  answered := nofun
  opened _ _ := rfl

/-- A call with no successful `open()`, which leaves the list as it is. -/
theorem Shared.keep (g : Shared env calls o) {c : OpenCall} {o' : Opened}
    (hfiles : o'.openFiles = o.openFiles)
    (hfile : ∀ f ∈ c.file, f ∈ o.openFiles ∧ f.name = fileFullName env c.name)
    (hnil : c.name = [] → c.file.isSome) (hout : ∀ fd ∈ c.outcome, fd = -1) :
    Shared env (calls ++ [c]) o' where
  descriptors := hfiles ▸ g.descriptors
  names := hfiles ▸ g.names
  stderr := hfiles ▸ g.stderr
  returned := by
    intro c' hc'
    rw [hfiles]
    rcases List.mem_append.mp hc' with hc' | hc'
    · exact g.returned c' hc'
    · rw [List.mem_singleton.mp hc']
      exact hfile
  answered c' hc' := by
    rcases List.mem_append.mp hc' with hc' | hc'
    · exact g.answered c' hc'
    · rwa [List.mem_singleton.mp hc']
  opened n hn := by
    have hnot : ¬ OpenCall.Opens env n c := fun ⟨_, fd, hfd, hne⟩ => hne (hout fd hfd)
    rw [timesOpened_concat, if_neg hnot, hfiles]
    exact g.opened n hn

theorem Shared.add (g : Shared env calls o) {c : OpenCall} {o' : Opened} {f : OpenFile}
    (hfiles : o'.openFiles = o.openFiles ++ [f]) (hfile : c.file = some f)
    (hname : f.name = fileFullName env c.name) (hfd : ∀ e ∈ o.openFiles, e.fd ≠ f.fd)
    (hnew : f.name ≠ [] → ∀ e ∈ o.openFiles, e.name ≠ f.name)
    (hstd : f.name = [] ↔ f.fd = STDERR_FILENO)
    (hopens : ∀ n ≠ [], OpenCall.Opens env n c ↔ f.name = n) :
    Shared env (calls ++ [c]) o' where
  descriptors := by
    rw [hfiles, List.map_append]
    refine List.nodup_append.mpr ⟨g.descriptors, List.nodup_singleton _, ?_⟩
    rintro _ hx _ hy rfl
    obtain ⟨e, he, hx⟩ := List.mem_map.mp hx
    exact hfd e he (hx.trans (List.mem_singleton.mp hy))
  names := by
    rw [hfiles, List.map_append, List.filter_append]
    refine List.nodup_append.mpr ⟨g.names, (List.nodup_singleton _).filter _, ?_⟩
    rintro _ hx _ hy rfl
    obtain ⟨e, he, hx⟩ := List.mem_map.mp (List.mem_filter.mp hx).1
    obtain ⟨hy, hne⟩ := List.mem_filter.mp hy
    have hy := List.mem_singleton.mp hy
    exact hnew (by simpa [hy] using hne) e he (hx.trans hy)
  stderr := by
    intro e he
    rw [hfiles] at he
    rcases List.mem_append.mp he with he | he
    · exact g.stderr e he
    · rw [List.mem_singleton.mp he]
      exact hstd
  returned := by
    intro c' hc' e he
    rw [hfiles]
    rcases List.mem_append.mp hc' with hc' | hc'
    · obtain ⟨hmem, hn⟩ := g.returned c' hc' e he
      exact ⟨List.mem_append_left _ hmem, hn⟩
    · rw [List.mem_singleton.mp hc'] at he ⊢
      obtain rfl : f = e := Option.some.inj (hfile.symm.trans he)
      exact ⟨List.mem_append_right _ (List.mem_singleton_self _), hname⟩
  answered c' hc' hn := by
    rcases List.mem_append.mp hc' with hc' | hc'
    · exact g.answered c' hc' hn
    · rw [List.mem_singleton.mp hc', hfile]
      rfl
  opened n hn := by
    rw [timesOpened_concat, g.opened n hn, hfiles, List.map_append, List.count_append]
    simp [hopens n hn, List.count_singleton]

theorem Shared.call (g : Shared env calls o) {name : Bytes} {c : OpenCall} {o' : Opened}
    (h : OpenCall.Does env o name c o') : Shared env (calls ++ [c]) o' := by
  cases h with
  | found f hf hname => exact g.keep rfl (by simpa using ⟨hf, hname⟩) (fun _ => rfl) nofun
  | failed hn _ hfiles => exact g.keep hfiles nofun (fun h => absurd h hn) (by simp)
  | stderr hn hnew _ hfiles =>
    have hfull : fileFullName env name = [] := fileFullName_eq_nil.mpr hn
    exact g.add hfiles rfl hfull.symm hnew (fun h => absurd rfl h) (by simp)
      (fun n hne => by simp [OpenCall.Opens, Ne.symm hne])
  | opened hn fd hfd hstd hother hnew _ hfiles =>
    exact g.add hfiles rfl rfl hother (fun _ => hnew) (by simp [fileFullName_eq_nil, hn, hstd])
      (fun n _ => by simp [OpenCall.Opens, hfd])

theorem OpenRun.shared (run : OpenRun env calls o) : Shared env calls o := by
  induction run with
  | init => exact shared_init
  | call name _ allowed ih => exact ih.call (openCall_does ih.stderr name allowed)

/-- Two entries with one name are the same entry, stderr included. -/
theorem Shared.name_injOn (g : Shared env calls o) {e f : OpenFile} (he : e ∈ o.openFiles)
    (hf : f ∈ o.openFiles) (h : e.name = f.name) : e = f := by
  by_cases hn : e.name = []
  · have hfd : e.fd = f.fd := by
      rw [(g.stderr e he).mp hn, (g.stderr f hf).mp (h ▸ hn)]
    exact List.inj_on_of_nodup_map g.descriptors he hf hfd
  · have hnodup := g.names
    rw [List.filter_map] at hnodup
    exact List.inj_on_of_nodup_map hnodup (List.mem_filter.mpr ⟨he, by simpa using hn⟩)
      (List.mem_filter.mpr ⟨hf, by simpa [← h] using hn⟩) h

/-- A name with an entry has been opened once, any other one not at all. -/
theorem Shared.timesOpened_le (g : Shared env calls o) {n : Bytes} (hn : n ≠ []) :
    timesOpened env n calls ≤ 1 := by
  have hone := List.nodup_iff_count_le_one.mp g.names n
  rwa [List.count_filter (by simpa using hn), ← g.opened n hn] at hone

theorem Shared.timesOpened_eq (g : Shared env calls o) {c : OpenCall} (hc : c ∈ calls)
    (hn : c.name ≠ []) (hsome : c.file.isSome) :
    timesOpened env (getFullName env.prefix_ c.name) calls = 1 := by
  obtain ⟨f, hf⟩ := Option.isSome_iff_exists.mp hsome
  obtain ⟨hmem, hname⟩ := g.returned c hc f hf
  have hne := getFullName_ne_nil env.prefix_ hn
  refine le_antisymm (g.timesOpened_le hne) ?_
  rw [g.opened _ hne, ← fileFullName_of_ne hn, ← hname]
  exact List.count_pos_iff.mpr (List.mem_map_of_mem hmem)

theorem Shared.file_of_nil (g : Shared env calls o) {c : OpenCall} (hc : c ∈ calls)
    (hn : c.name = []) : c.file = some ⟨STDERR_FILENO, []⟩ := by
  obtain ⟨⟨fd, name⟩, hf⟩ := Option.isSome_iff_exists.mp (g.answered c hc hn)
  obtain ⟨hmem, hname⟩ := g.returned c hc _ hf
  obtain rfl : name = [] := hname.trans (fileFullName_eq_nil.mpr hn)
  obtain rfl : fd = STDERR_FILENO := (g.stderr _ hmem).mp rfl
  exact hf

/-- Log files are shared: a file that is asked for again is the same entry, opened once,
different files are different entries, the empty name is the stderr entry, and a failed
`open()` leaves the list as it is. -/
theorem log_files_shared (run : OpenRun env calls o) :
    (∀ a ∈ calls, ∀ b ∈ calls, ∀ f ∈ a.file, ∀ f' ∈ b.file,
      f ∈ o.openFiles ∧ (f = f' ↔ fileFullName env a.name = fileFullName env b.name)) ∧
    (∀ n ≠ [], timesOpened env n calls ≤ 1) ∧
    (∀ c ∈ calls, c.name ≠ [] → c.file.isSome →
      timesOpened env (getFullName env.prefix_ c.name) calls = 1) ∧
    (∀ c ∈ calls, c.name = [] → c.file = some ⟨STDERR_FILENO, []⟩) ∧
    (o.openFiles.map (·.fd)).Nodup ∧ ((o.openFiles.map (·.name)).filter (· ≠ [])).Nodup ∧
    ∀ name, (openCall env o name).1.outcome = some (-1) →
      (openCall env o name).1.file = none ∧
        (openCall env o name).2.openFiles = o.openFiles := by
  have g := run.shared
  refine ⟨fun a ha b hb f hf f' hf' => ?_, fun n => g.timesOpened_le,
    fun c => g.timesOpened_eq, fun c => g.file_of_nil, g.descriptors, g.names,
    fun name hout => ?_⟩
  · obtain ⟨hmem, hname⟩ := g.returned a ha f hf
    obtain ⟨hmem', hname'⟩ := g.returned b hb f' hf'
    refine ⟨hmem, fun h => ?_, fun h => ?_⟩
    · rw [← hname, ← hname', h]
    · exact g.name_injOn hmem hmem' (by rw [hname, hname', h])
  · have allowed : ∀ fd ∈ (openCall env o name).1.outcome, OpenFiles.Allows o.openFiles fd :=
      fun fd hfd => .inl (Option.some.inj (hfd.symm.trans hout))
    have hdoes := openCall_does g.stderr name allowed
    generalize hc : openCall env o name = call at hdoes hout ⊢
    obtain ⟨c, o'⟩ := call
    cases hdoes with
    | found => exact absurd hout nofun
    | failed _ _ hfiles => exact ⟨rfl, hfiles⟩
    | stderr => exact absurd hout nofun
    | opened _ fd hfd => exact absurd (Option.some.inj hout) hfd

/-- A prefix, and an `open()` that fails once and then returns new descriptors. -/
def failingOnce : Env := ⟨ascii "/p", ascii "log", fun k => if k = 0 then -1 else k + 2⟩

/-- A file that cannot be opened at first is opened once, by either of its names. -/
theorem log_files_shared_failingOnce : ∃ calls o, OpenRun failingOnce calls o ∧
    calls.map (·.file) =
      [none, some ⟨3, ascii "/p/a"⟩, some ⟨STDERR_FILENO, []⟩, some ⟨3, ascii "/p/a"⟩] ∧
    timesOpened failingOnce (ascii "/p/a") calls ≤ 1 := by
  have run : OpenRun failingOnce [] {} := .init
  have run := (run.call (ascii "a") (by decide)).call (ascii "a") (by decide)
  have run := (run.call [] (by decide)).call (ascii "/p/a") (by decide)
  exact ⟨_, _, run, by decide, (log_files_shared run).2.1 _ (by decide)⟩

end Lingx.Logs

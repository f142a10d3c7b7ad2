import Lingx.Library.Except
import Lingx.Logs.State
import Mathlib.Data.Finset.Card
import Mathlib.Data.List.Basic

/-! The open files. As long as every call of `open()` succeeds, one call is made for
each distinct name, and each call of `log_open_file` returns a file. -/

namespace Lingx.Logs

open Library

variable {env : Env} {o : Opened} {name : Bytes}

/-- A successful `open()` returns a descriptor that is not in use; the standard ones
are. -/
def FreshDescriptors (env : Env) : Prop :=
  ∀ k, env.openRc k ≠ -1 → env.openRc k ≠ STDERR_FILENO ∧ ∀ j < k, env.openRc j ≠ env.openRc k

theorem fileOf_cases (o : Opened) (fd : ℤ) (fname : Bytes) :
    (∃ f ∈ o.openFiles, f.fd = fd ∧ fileOf o fd fname = (some f, o)) ∨
      (∀ f ∈ o.openFiles, f.fd ≠ fd) ∧ fileOf o fd fname =
        (some ⟨fd, fname⟩, { o with openFiles := o.openFiles ++ [⟨fd, fname⟩] }) := by
  cases hf : o.openFiles.find? (·.fd = fd) with
  | some f =>
    have hfd : f.fd = fd := by simpa using List.find?_some hf
    exact .inl ⟨f, List.mem_of_find?_eq_some hf, hfd, by simp [fileOf, hf]⟩
  | none =>
    refine .inr ⟨by simpa using List.find?_eq_none.mp hf, by simp [fileOf, hf]⟩

/-- What `log_open_file` does: the empty name is stderr, a known name is its file, and
an unknown one is opened. -/
theorem logOpenFile_cases (env : Env) (o : Opened) (name : Bytes) :
    (name = [] ∧ logOpenFile env o name = fileOf o STDERR_FILENO []) ∨
      (name ≠ [] ∧ ∃ f ∈ o.openFiles, f.name = getFullName env.prefix_ name ∧
        logOpenFile env o name = (some f, o)) ∨
      (name ≠ [] ∧ (∀ f ∈ o.openFiles, f.name ≠ getFullName env.prefix_ name) ∧
        ((env.openRc o.opens = -1 ∧ logOpenFile env o name =
            (none, { o with
              opens := o.opens + 1
              failed := o.failed ++ [getFullName env.prefix_ name] })) ∨
          (env.openRc o.opens ≠ -1 ∧ logOpenFile env o name =
            fileOf { o with opens := o.opens + 1 } (env.openRc o.opens)
              (getFullName env.prefix_ name)))) := by
  by_cases hn : name = []
  · exact .inl ⟨hn, by rw [logOpenFile, if_pos hn]⟩
  · refine .inr ?_
    cases hf : o.openFiles.find? (·.name = getFullName env.prefix_ name) with
    | some f =>
      have hname : f.name = getFullName env.prefix_ name := by simpa using List.find?_some hf
      exact .inl ⟨hn, f, List.mem_of_find?_eq_some hf, hname, by simp [logOpenFile, hn, hf]⟩
    | none =>
      refine .inr ⟨hn, by simpa using List.find?_eq_none.mp hf, ?_⟩
      by_cases hrc : env.openRc o.opens = -1
      · exact .inl ⟨hrc, by simp [logOpenFile, hn, hf, hrc]⟩
      · exact .inr ⟨hrc, by simp [logOpenFile, hn, hf, hrc]⟩

theorem fileOf_opens (o : Opened) (fd : ℤ) (fname : Bytes) :
    (fileOf o fd fname).1.isSome ∧ (fileOf o fd fname).2.opens = o.opens := by
  rcases fileOf_cases o fd fname with ⟨f, -, -, h⟩ | ⟨-, h⟩ <;> simp [h]

theorem logOpenFile_opens (env : Env) (o : Opened) (name : Bytes) :
    o.opens ≤ (logOpenFile env o name).2.opens := by
  rcases logOpenFile_cases env o name with ⟨-, h⟩ | ⟨-, f, -, -, h⟩ | ⟨-, -, ⟨-, h⟩ | ⟨-, h⟩⟩
  · rw [h, (fileOf_opens o _ _).2]
  · rw [h]
  · simp [h]
  · rw [h, (fileOf_opens _ _ _).2]
    exact Nat.le_succ _

/-- A file is returned if the call of `open()`, where one is made, succeeds. -/
theorem logOpenFile_isSome {f : Option OpenFile} {o' : Opened}
    (hf : logOpenFile env o name = (f, o')) (h : ∀ k < o'.opens, env.openRc k ≠ -1) : f.isSome := by
  rcases logOpenFile_cases env o name with ⟨-, h'⟩ | ⟨-, f', -, -, h'⟩ | ⟨-, -, ⟨hrc, h'⟩ | ⟨-, h'⟩⟩
  · have hsome := (fileOf_opens o STDERR_FILENO []).1
    rwa [← h', hf] at hsome
  · obtain ⟨rfl, -⟩ := Prod.mk.inj (hf.symm.trans h')
    rfl
  · obtain ⟨-, rfl⟩ := Prod.mk.inj (hf.symm.trans h')
    exact absurd hrc (h _ (Nat.lt_succ_self _))
  · have hsome := (fileOf_opens { o with opens := o.opens + 1 } (env.openRc o.opens)
      (getFullName env.prefix_ name)).1
    rwa [← h', hf] at hsome

/-- The name that `log_open_file` is called with for the file of a directive. -/
def fileName (file : Bytes) : Bytes := if file = ascii "stderr" then [] else file

theorem directiveFile_ok {file : Bytes} {f : Option OpenFile} {o' : Opened}
    (h : directiveFile env o file = .ok (f, o')) : logOpenFile env o (fileName file) = (f, o') := by
  rw [directiveFile] at h
  rw [fileName]
  split_ifs at h ⊢
  · exact Except.ok.inj h
  · exact Except.ok.inj h

/-- The full names among the names that `log_open_file` is called with. -/
def fullNames (env : Env) (names : List Bytes) : Finset Bytes :=
  ((names.filter (· ≠ [])).map (getFullName env.prefix_)).toFinset

theorem fullNames_concat (names : List Bytes) (name : Bytes) :
    fullNames env (names ++ [name]) =
      if name = [] then fullNames env names
      else insert (getFullName env.prefix_ name) (fullNames env names) := by
  by_cases hn : name = []
  · simp [fullNames, hn]
  · ext n
    simp [fullNames, hn]

theorem getFullName_ne_nil (p : Bytes) (hn : name ≠ []) : getFullName p name ≠ [] := by
  rw [getFullName]
  split_ifs
  · exact hn
  · simp [hn]

/-- Every call of `open()` so far has succeeded, one for each of the names. -/
structure AllOpened (env : Env) (o : Opened) (names : List Bytes) : Prop where
  opens : o.opens = (fullNames env names).card
  succeeded : ∀ k < o.opens, env.openRc k ≠ -1
  known : ∀ n ≠ [], (∃ f ∈ o.openFiles, f.name = n) ↔ n ∈ fullNames env names
  descriptors : ∀ f ∈ o.openFiles, f.fd = STDERR_FILENO ∨ ∃ k < o.opens, f.fd = env.openRc k

theorem allOpened_init : AllOpened env {} [] where
  opens := rfl
  succeeded := nofun
  known := by simp [fullNames]
  descriptors := nofun

/-- A call of `log_open_file` returns a file, or its `open()` is one of those for the
names and fails. -/
theorem AllOpened.logOpenFile {names : List Bytes} (hfresh : FreshDescriptors env)
    (g : AllOpened env o names) (name : Bytes) :
    ((logOpenFile env o name).1.isSome ∧
        AllOpened env (logOpenFile env o name).2 (names ++ [name])) ∨
      ((logOpenFile env o name).1 = none ∧
        ∃ k < (fullNames env (names ++ [name])).card, env.openRc k = -1) := by
  rcases logOpenFile_cases env o name with
    ⟨hn, h⟩ | ⟨hn, f, hf, hname, h⟩ | ⟨hn, hnew, ⟨hrc, h⟩ | ⟨hrc, h⟩⟩
  · have hnames : fullNames env (names ++ [name]) = fullNames env names := by
      rw [fullNames_concat, if_pos hn]
    refine .inl ⟨h ▸ (fileOf_opens o _ _).1, ?_⟩
    rcases fileOf_cases o STDERR_FILENO [] with ⟨f, -, -, h'⟩ | ⟨-, h'⟩
    · rw [h, h']
      exact ⟨hnames ▸ g.opens, g.succeeded, hnames ▸ g.known, g.descriptors⟩
    · rw [h, h']
      refine ⟨hnames ▸ g.opens, g.succeeded, fun n hn => ?_, fun f hf => ?_⟩
      · have hk := g.known n hn
        simp [hnames, ← hk, or_and_right, exists_or, Ne.symm hn]
      · rcases List.mem_append.mp hf with hf | hf
        · exact g.descriptors f hf
        · exact .inl (by rw [List.mem_singleton.mp hf])
  · have hmem : getFullName env.prefix_ name ∈ fullNames env names :=
      (g.known _ (getFullName_ne_nil _ hn)).mp ⟨f, hf, hname⟩
    have hnames : fullNames env (names ++ [name]) = fullNames env names := by
      rw [fullNames_concat, if_neg hn, Finset.insert_eq_of_mem hmem]
    rw [h]
    exact .inl ⟨rfl, hnames ▸ g.opens, g.succeeded, hnames ▸ g.known, g.descriptors⟩
  all_goals
    have hnot : getFullName env.prefix_ name ∉ fullNames env names := fun hm => by
      obtain ⟨f, hf, hname⟩ := (g.known _ (getFullName_ne_nil _ hn)).mpr hm
      exact hnew f hf hname
    have hcard : (fullNames env (names ++ [name])).card = o.opens + 1 := by
      rw [fullNames_concat, if_neg hn, Finset.card_insert_of_notMem hnot, g.opens]
  · exact .inr ⟨by rw [h], o.opens, by omega, hrc⟩
  · refine .inl ⟨h ▸ (fileOf_opens _ _ _).1, ?_⟩
    rcases fileOf_cases { o with opens := o.opens + 1 } (env.openRc o.opens)
      (getFullName env.prefix_ name) with ⟨f, hf, hfd, -⟩ | ⟨-, h'⟩
    · obtain ⟨hstd, hother⟩ := hfresh _ hrc
      rcases g.descriptors f hf with hd | ⟨k, hk, hd⟩
      · exact absurd (hfd.symm.trans hd) hstd
      · exact absurd (hd.symm.trans hfd) (hother k hk)
    · rw [h, h']
      refine ⟨hcard.symm, fun k hk => ?_, fun n hne => ?_, fun f hf => ?_⟩
      · rcases Nat.lt_succ_iff_lt_or_eq.mp hk with hk | rfl
        · exact g.succeeded k hk
        · exact hrc
      · have hk := g.known n hne
        simp only [fullNames_concat, if_neg hn, Finset.mem_insert, ← hk]
        simp [or_and_right, exists_or, or_comm, eq_comm]
      · rcases List.mem_append.mp hf with hf | hf
        · rcases g.descriptors f hf with hd | ⟨k, hk, hd⟩
          · exact .inl hd
          · exact .inr ⟨k, Nat.lt_succ_of_lt hk, hd⟩
        · exact .inr ⟨o.opens, Nat.lt_succ_self _, by rw [List.mem_singleton.mp hf]⟩

end Lingx.Logs

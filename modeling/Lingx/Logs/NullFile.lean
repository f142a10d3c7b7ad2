import Lingx.Logs.Deliver

/-! Logs without a file. A directive whose `open()` fails is accepted all the same, and
leaves a null file in its log; the fallback to the default log does not mend that. The
writers are safe exactly when each call of `open()` that the configuration needs
succeeds. -/

namespace Lingx.Logs

open Library

variable {env : Env} {s t : LogCycle} {es : List Entry} {ds : List (List Bytes)}

/-- The names that `log_open_file` is called with for the directives. -/
def directiveNames (ds : List (List Bytes)) : List Bytes :=
  ds.map fun args => fileName (args.getD 1 [])

/-- The names that the logs of a configuration are opened with. -/
def logNames (env : Env) (ds : List (List Bytes)) : List Bytes :=
  if ds = [] then [env.errorLogPath] else directiveNames ds

/-- No log that is reached from the head has a null file, and the writers find none. -/
structure NoNullFile (s : LogCycle) : Prop where
  reached : ∀ a, Relation.ReflTransGen (fun b c => s.next b = some c) 0 a → (s.log a).file.isSome
  logLog : ∀ useStderr lvl, (logLog s useStderr lvl).isSome
  redirect : (logRedirectStderr s).isSome

theorem Installed.noNullFile_iff {l : List ℕ} (g : Installed s l es) :
    NoNullFile s ↔ ∀ e ∈ es, e.file.isSome := by
  constructor
  · intro h e he
    obtain ⟨a, ha, rfl⟩ := g.mem_iff.mp he
    exact h.reached a (g.chain.mem_iff_reach.mp ha)
  · intro h
    have hfile : ∀ a ∈ 0 :: l, (s.log a).file.isSome := fun a ha => h _ (g.mem_iff.mpr ⟨a, ha, rfl⟩)
    refine ⟨fun a ha => hfile a (g.chain.mem_iff_reach.mpr ha), fun useStderr lvl => ?_, ?_⟩
    · obtain ⟨ws, hws, -⟩ := g.logWrites h lvl
      simp [Logs.logLog, hws]
    · obtain ⟨f, hf⟩ := Option.isSome_iff_exists.mp (hfile 0 (by simp))
      rw [logRedirectStderr]
      split_ifs
      · rfl
      · simp [hf]

theorem fullNames_card_le (names more : List Bytes) :
    (fullNames env names).card ≤ (fullNames env (names ++ more)).card := by
  refine Finset.card_le_card fun n hn => ?_
  simp only [fullNames, List.mem_toFinset, List.mem_map, List.mem_filter] at hn ⊢
  obtain ⟨a, ⟨ha, hne⟩, rfl⟩ := hn
  exact ⟨a, ⟨List.mem_append_left more ha, hne⟩, rfl⟩

/-- The directives leave a null file exactly when one of their calls of `open()` fails. -/
theorem directiveEntries_allOpened {o o' : Opened} {names : List Bytes}
    (hfresh : FreshDescriptors env) (g : AllOpened env o names)
    (h : directiveEntries env o ds = .ok (es, o')) :
    ((∀ e ∈ es, e.file.isSome) ∧ AllOpened env o' (names ++ directiveNames ds)) ∨
      ((∃ e ∈ es, e.file = none) ∧
        ∃ k < (fullNames env (names ++ directiveNames ds)).card, env.openRc k = -1) := by
  induction ds generalizing o es names with
  | nil =>
    obtain ⟨rfl, rfl⟩ := Prod.mk.inj (Except.ok.inj h)
    exact .inl ⟨by simp, by simpa [directiveNames] using g⟩
  | cons args ds ih =>
    obtain ⟨⟨e, o₁⟩, he, h⟩ := bind_eq_ok.mp h
    obtain ⟨⟨es₁, o₂⟩, hes, h⟩ := bind_eq_ok.mp h
    obtain ⟨rfl, rfl⟩ := Prod.mk.inj (pure_eq_ok.mp h)
    have happ : names ++ directiveNames (args :: ds) =
        (names ++ [fileName (args.getD 1 [])]) ++ directiveNames ds := by simp [directiveNames]
    have hopen := g.logOpenFile hfresh (fileName (args.getD 1 []))
    rw [directiveEntry_cases he] at hopen
    rw [happ]
    rcases hopen with ⟨hsome, g₁⟩ | ⟨hnone, k, hk, hrc⟩
    · rcases ih g₁ hes with ⟨hall, g₂⟩ | ⟨⟨e', he', hnone⟩, hbad⟩
      · exact .inl ⟨List.forall_mem_cons.mpr ⟨hsome, hall⟩, g₂⟩
      · exact .inr ⟨⟨e', List.mem_cons_of_mem e he', hnone⟩, hbad⟩
    · exact .inr ⟨⟨e, List.mem_cons_self, hnone⟩, k, lt_of_lt_of_le hk (fullNames_card_le _ _), hrc⟩

theorem Configured.noNullFile_default (hfresh : FreshDescriptors env) (g : Configured s [])
    (ho : s.opened = {}) : NoNullFile (logOpenDefault env s) ↔
      ∀ k < (fullNames env [env.errorLogPath]).card, env.openRc k ≠ -1 := by
  rcases g.openDefault env (by simp) with ⟨⟨e, he, -⟩, -⟩ | ⟨-, l, f, hf, g'⟩
  · simp at he
  · have hopen := allOpened_init.logOpenFile hfresh env.errorLogPath
    rw [← ho, hf] at hopen
    rw [g'.noNullFile_iff]
    rcases hopen with ⟨hsome, g₁⟩ | ⟨hnone, k, hk, hrc⟩
    · refine iff_of_true (by simpa using hsome) ?_
      have := g₁.succeeded
      rwa [g₁.opens] at this
    · refine iff_of_false (fun hall => ?_) fun hok => hok k hk hrc
      have := hall ⟨ERROR, f⟩ (by simp)
      rw [show f = none from hnone] at this
      cases this

theorem Configured.noNullFile_iff (g : Configured s es) (hne : ∀ e ∈ es, e.level ≠ STDERR)
    (hes : es ≠ []) : NoNullFile (logOpenDefault env s) ↔ ∀ e ∈ es, e.file.isSome := by
  rcases g.openDefault env hne with ⟨-, hsame⟩ | ⟨hnone, l, f, -, g'⟩
  · obtain ⟨rfl, -⟩ | ⟨l, g⟩ := g
    · exact absurd rfl hes
    · rw [hsame]
      exact g.noNullFile_iff
  · obtain ⟨e, he⟩ := List.exists_mem_of_ne_nil es hes
    have hnull : ¬ e.file.isSome = true := by simp [hnone e he]
    refine iff_of_false (fun hno => hnull ?_) fun hall => hnull (hall e he)
    exact g'.noNullFile_iff.mp hno e (List.mem_append_left _ he)

/-- The logs that are installed have files exactly when the calls of `open()`, one for
each distinct name, all succeed. -/
theorem logOpenDefault_noNullFile_iff (hfresh : FreshDescriptors env)
    (h : configureLogs env .init ds = .ok s) :
    NoNullFile (logOpenDefault env s) ↔
      ∀ k < (fullNames env (logNames env ds)).card, env.openRc k ≠ -1 := by
  have hinit : Configured LogCycle.init [] := .inl ⟨rfl, rfl, Nat.one_pos⟩
  obtain ⟨es, hes, hlen, hne, g⟩ := hinit.configureLogs (by simp) h
  rw [List.nil_append] at g
  by_cases hds : ds = []
  · subst hds
    obtain rfl : es = [] := List.length_eq_zero_iff.mp hlen
    have ho : s.opened = {} := ((Prod.mk.inj (Except.ok.inj hes)).2).symm
    rw [logNames, if_pos rfl]
    exact g.noNullFile_default hfresh ho
  · have hes0 : es ≠ [] := by
      rintro rfl
      exact hds (List.length_eq_zero_iff.mp hlen.symm)
    have hopen := directiveEntries_allOpened hfresh allOpened_init hes
    rw [List.nil_append] at hopen
    rw [logNames, if_neg hds, g.noNullFile_iff hne hes0]
    rcases hopen with ⟨hall, g₁⟩ | ⟨⟨e, he, hnone⟩, k, hk, hrc⟩
    · have hok := g₁.succeeded
      rw [g₁.opens] at hok
      exact iff_of_true hall hok
    · refine iff_of_false (fun hall => ?_) fun hok => hok k hk hrc
      have := hall e he
      rw [hnone] at this
      cases this

/-- An environment in which the first call of `open()` fails. -/
def firstOpenFails : Env :=
  ⟨ascii "/lingx", ascii "logs/error.log", fun k => if k = 0 then -1 else k + 3⟩

theorem firstOpenFails_fresh : FreshDescriptors firstOpenFails := by
  have hrc : ∀ k, firstOpenFails.openRc k = if k = 0 then -1 else (k : ℤ) + 3 := fun _ => rfl
  intro k hk
  by_cases h0 : k = 0
  · exact absurd (by rw [hrc, if_pos h0]) hk
  · rw [hrc, if_neg h0]
    refine ⟨?_, fun j _ => ?_⟩
    · show (k : ℤ) + 3 ≠ 2
      omega
    · rw [hrc]
      split_ifs <;> omega

/-- With one directive and no other failure. -/
theorem logOpenDefault_nullFile : FreshDescriptors firstOpenFails ∧ ∃ s,
    configureLogs firstOpenFails .init [[ascii "error_log", ascii "logs/a"]] = .ok s ∧
      ¬ NoNullFile (logOpenDefault firstOpenFails s) ∧
      logRedirectStderr (logOpenDefault firstOpenFails s) = none ∧
      logLog (logOpenDefault firstOpenFails s) true ERROR = none := by
  refine ⟨firstOpenFails_fresh, _, rfl, fun h => ?_, rfl, rfl⟩
  exact absurd h.redirect (by decide)

/-- The same directive with no failure. -/
theorem logOpenDefault_noNullFile_iff_open : ∃ s,
    configureLogs openEnv .init [[ascii "error_log", ascii "logs/a"]] = .ok s ∧
      (NoNullFile (logOpenDefault openEnv s) ↔
        ∀ k < (fullNames openEnv (logNames openEnv [[ascii "error_log", ascii "logs/a"]])).card,
          openEnv.openRc k ≠ -1) := by
  refine ⟨_, rfl, logOpenDefault_noNullFile_iff (fun k _ => ⟨?_, fun j hj => ?_⟩) rfl⟩
  · show (k : ℤ) + 3 ≠ 2
    omega
  · show (j : ℤ) + 3 ≠ k + 3
    omega

end Lingx.Logs

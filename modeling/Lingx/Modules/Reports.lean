import Lingx.Conf.Reported
import Lingx.Modules.Flags

/-! What `Init_new_cycle` reports of a configuration. The commands of the program hand the
errors of their blocks on, so each of its two parses logs one message at most, which names the
place, and the configuration is then rejected. -/

namespace Lingx.Modules

open Lingx.Conf

theorem handsOn_of_done {s : Setter State} (h : ∃ rv st', s = .done rv st') : s.HandsOn := by
  obtain ⟨rv, st', rfl⟩ := h
  trivial

theorem eventsBlock_handsOn (e : Setup) (call : Call) (st : State) :
    (eventsBlock e call st).HandsOn := by
  rcases eventsBlock_cases e call st with ⟨rv, -, hset⟩ | ⟨-, idx, l, hset, -⟩
  · exact handsOn_of_done ⟨rv, st, hset⟩
  · rw [hset]
    exact ⟨fun st => handsOn_of_done (eventsInit_done .ok st), fun st => ⟨st, if_pos (by simp)⟩⟩

theorem confModules_handingOn (e : Setup) : HandingOn (confModules e) := by
  intro mod hmod cmd hcmd call st
  have hsimple {cmd : Command State} (hdone : ∃ rv st', cmd.set call st = .done rv st') :
      (cmd.set call st).HandsOn ∧
        (cmd.isBlock = false → ∃ rv st', cmd.set call st = .done rv st') :=
    ⟨handsOn_of_done hdone, fun _ => hdone⟩
  have hflag (offset : ℕ) : ∃ rv st', setFlagSlot offset call st = .done rv st' := by
    obtain ⟨rv, st', hset, -⟩ := setFlagSlot_done offset call st
    exact ⟨rv, st', hset⟩
  obtain ⟨m, hm, rfl⟩ := mem_confModules hmod
  cases m with
  | core => rcases List.mem_pair.mp hcmd with rfl | rfl <;> exact hsimple (hflag _)
  | errlog =>
    obtain rfl := List.mem_singleton.mp hcmd
    obtain ⟨rv, st', hset, -⟩ := errorLog_done e call st
    exact hsimple ⟨rv, st', hset⟩
  | events =>
    obtain rfl := List.mem_singleton.mp hcmd
    refine ⟨eventsBlock_handsOn e call st, fun hblock => ?_⟩
    exact absurd hblock (by simp [Command.isBlock]; decide)
  | eventCore =>
    obtain rfl := List.mem_singleton.mp hcmd
    exact hsimple (hflag _)
  | eventPoll => cases hcmd
  | http => exact absurd hm (by decide)
  | httpCore => exact absurd hm (by decide)

section Errors
variable {e : Setup} {ctxIndex : Mod → UInt32} {text filename : Bytes} {o : Opened} {kind : Kind}
  {scope : Scope} {src : Source} {rv rv' : Rv} {r₀ r r' : Run State}

/-- The messages of `Conf` in what has been seen. -/
def errors (trace : List Obs) : List ConfError := trace.filterMap Obs.error

def NewCycle.errors (c : NewCycle) : List ConfError := Modules.errors c.trace

/-- How a parse of the program ends: without a message by a read of the destroyed vector, or
as it is reported. -/
def Reports (e : Setup) (kind : Kind) (scope : Scope) (src : Source) (r₀ : Run State) (rv : Rv)
    (r : Run State) : Prop :=
  if r.missed = true then rv = .error ∧ errors (seen r) = []
  else errors (seen r) = r.errors ∧ Reported (confModules e) kind scope src r₀ rv r

theorem seen_of_not_missed (h : r.missed = false) : seen r = r.trace := by
  refine List.filter_eq_self.mpr fun o ho => ?_
  simpa using List.any_eq_false.mp h o ho

/-- The message of a search that finds no command is the last thing seen, and the only error. -/
theorem errors_seen_of_missed (h : Reported (confModules e) kind scope src r₀ rv r)
    (hmissed : r.missed = true) : rv = .error ∧ errors (seen r) = [] := by
  obtain ⟨o, ho, hmiss⟩ := List.any_eq_true.mp hmissed
  obtain ⟨d, err, rfl⟩ : ∃ d err, o = .message d err := by
    cases o with
    | message d err => exact ⟨d, err, rfl⟩
    | token _ _ => cases hmiss
    | call _ _ _ => cases hmiss
  have hmem : err ∈ r.errors := List.mem_filterMap.mpr ⟨_, ho, rfl⟩
  cases h with
  | ok _ herr => exact absurd hmem (by simp [herr])
  | refused _ herr => exact absurd hmem (by simp [herr])
  | @logged err' _ hrv herr hlast =>
    refine ⟨hrv, ?_⟩
    rcases List.eq_nil_or_concat' r.trace with hnil | ⟨tr, o, htrace⟩
    · exact absurd ho (by simp [hnil])
    rw [htrace] at ho hlast
    have hlast' : o.error = some err' := by simpa using hlast
    have hnone : errors tr = [] := by
      rw [Run.errors, htrace, List.filterMap_append, List.filterMap_cons_some hlast',
        List.filterMap_nil] at herr
      exact List.self_eq_append_left.mp herr.symm
    rcases List.mem_append.mp ho with ho | ho
    · exact absurd (List.filterMap_eq_nil_iff.mp hnone _ ho) (by simp [Obs.error])
    · obtain rfl := List.mem_singleton.mp ho
      refine List.filterMap_eq_nil_iff.mpr fun o ho => ?_
      rw [seen, htrace, List.filter_append, List.filter_singleton, hmiss] at ho
      have hmem : o ∈ tr := by
        rw [Bool.not_true, cond_false, List.append_nil] at ho
        exact List.mem_of_mem_filter ho
      exact List.filterMap_eq_nil_iff.mp hnone o hmem

theorem reports_of_reported (h : Reported (confModules e) kind scope src r₀ rv r) :
    Reports e kind scope src r₀ rv r := by
  rw [Reports]
  split_ifs with hmissed
  · exact errors_seen_of_missed h hmissed
  · exact ⟨congrArg errors (seen_of_not_missed (by simpa using hmissed)), h⟩

theorem Reports.of_ok (h : Reports e kind scope src r₀ rv r) (hrv : rv = .ok) :
    r.missed = false ∧ errors (seen r) = [] := by
  rw [Reports] at h
  split_ifs at h with hmissed
  · exact absurd (hrv.symm.trans h.1) (by simp)
  · exact ⟨by simpa using hmissed, h.1.trans (h.2.errors_of_ok hrv)⟩

theorem Reports.length_errors (h : Reports e kind scope src r₀ rv r) :
    (errors (seen r)).length ≤ 1 := by
  rw [Reports] at h
  split_ifs at h
  · simp [h.2]
  · exact h.1 ▸ h.2.length_errors

theorem Reports.not_missed (h : Reports e kind scope src r₀ rv r) (herr : errors (seen r) ≠ []) :
    r.missed = false := by
  rw [Reports] at h
  split_ifs at h with hmissed
  · exact absurd h.2 herr
  · simpa using hmissed

/-- The messages of `Init_new_cycle` are those of the parses that it makes. -/
theorem initNewCycle_errors
    (hparam : param (confModules e) text mainScope (createConf ctxIndex) = some (rv, r))
    (hfile : parseFile (confModules e) o filename mainScope r.st = some (rv', r')) :
    ∃ c, initNewCycle e ctxIndex text filename o = some c ∧
      c.errors = errors (seen r) ++ (if rv = .ok then errors (seen r') else []) ∧
      (rv = .ok ∧ rv' = .ok ∨ c.cycle = none) := by
  simp only [initNewCycle, hparam, hfile]
  by_cases hrv : rv = .ok
  · rw [if_neg (not_not_intro hrv), if_pos hrv]
    by_cases hrv' : rv' = .ok
    · rw [if_neg (not_not_intro hrv')]
      exact ⟨_, rfl, List.filterMap_append .., .inl ⟨hrv, hrv'⟩⟩
    · rw [if_pos hrv']
      exact ⟨_, rfl, List.filterMap_append .., .inr rfl⟩
  · rw [if_pos hrv, if_neg hrv]
    exact ⟨_, rfl, (List.append_nil _).symm, .inr rfl⟩

/-- A configuration whose parses have not missed comes to no undefined behaviour. -/
theorem fault_of_missed {c : NewCycle} (hc : initNewCycle e ctxIndex text filename o = some c)
    (hparam : param (confModules e) text mainScope (createConf ctxIndex) = some (rv, r))
    (hfile : parseFile (confModules e) o filename mainScope r.st = some (rv', r'))
    (hmissed : r.missed = false) (hmissed' : rv = .ok → r'.missed = false) : c.fault = false := by
  obtain ⟨c', hc', hfault, -⟩ := initNewCycle_spec e ctxIndex text filename o
  obtain rfl := Option.some.inj (hc.symm.trans hc')
  rw [← Bool.not_eq_true, hfault]
  rintro ⟨call, hlooked | ⟨r₁, hr₁, hlooked⟩, hfound⟩
  · have hmiss := (param_missed hparam).mpr ⟨call, hlooked, not_not.mp (found_iff.not.mp hfound)⟩
    exact Bool.false_ne_true (hmissed.symm.trans hmiss)
  · obtain ⟨rfl, rfl⟩ := Prod.mk.inj (Option.some.inj (hparam.symm.trans hr₁))
    have hmiss := (parseFile_missed hfile).mpr
      ⟨call, hlooked, not_not.mp (found_iff.not.mp hfound)⟩
    exact Bool.false_ne_true ((hmissed' rfl).symm.trans hmiss)

end Errors

/-- A configuration is reported on by one message at most. Whatever the texts of the file and
of the `-g` option are, each parse ends without an error, or with one message, of which the
file and the line are those of the byte that it is about, or in front of a setter that has
refused its directive, or without a message in the destroyed table, to which it comes exactly
by a directive that is not found in front of it. If there is a message, all directives have
been found, and the configuration is rejected. -/
theorem initNewCycle_reported (e : Setup) (ctxIndex : Mod → UInt32) {content : Bytes} {fd : ℤ}
    (hfd : fd ≠ -1) {pread : ℕ → ℕ → Option Bytes} (hread : Reads content pread)
    (text filename : Bytes) : ∃ rv r rv' r' c,
      param (confModules e) text mainScope (createConf ctxIndex) = some (rv, r) ∧
      Reports e .param mainScope ⟨text, -1, [], 0⟩ ⟨.param text, createConf ctxIndex, []⟩ rv r ∧
      parseFile (confModules e) ⟨fd, some content.length, pread⟩ filename mainScope r.st =
        some (rv', r') ∧
      Reports e .file mainScope ⟨content, fd, filename, 1⟩
        ⟨.opened fd filename content.length pread, r.st, []⟩ rv' r' ∧
      initNewCycle e ctxIndex text filename ⟨fd, some content.length, pread⟩ = some c ∧
      c.errors = errors (seen r) ++ (if rv = .ok then errors (seen r') else []) ∧
      c.errors.length ≤ 1 ∧
      (c.fault = true ↔ ∃ call, Looked e ctxIndex text filename ⟨fd, some content.length, pread⟩
        call ∧ ¬ Found e call) ∧
      (c.errors ≠ [] → c.fault = false ∧ c.cycle = none) := by
  have hm := confModules_handingOn e
  obtain ⟨rv, r, hparam, hreported⟩ := param_reported hm text mainScope (createConf ctxIndex)
  obtain ⟨rv', r', hfile, hreported'⟩ :=
    parseFile_reported hm hfd hread filename mainScope r.st
  have hreports := reports_of_reported hreported
  have hreports' := reports_of_reported hreported'
  obtain ⟨c, hc, herrors, hcycle⟩ := initNewCycle_errors hparam hfile
  obtain ⟨c', hc', hfault, -⟩ := initNewCycle_spec e ctxIndex text filename
    ⟨fd, some content.length, pread⟩
  obtain rfl := Option.some.inj (hc.symm.trans hc')
  refine ⟨rv, r, rv', r', c, hparam, hreports, hfile, hreports', hc, herrors, ?_, hfault,
    fun hne => ⟨?_, ?_⟩⟩
  · rw [herrors]
    by_cases hrv : rv = .ok
    · rw [if_pos hrv, (hreports.of_ok hrv).2, List.nil_append]
      exact hreports'.length_errors
    · rw [if_neg hrv, List.append_nil]
      exact hreports.length_errors
  · rw [herrors] at hne
    have hmissed : r.missed = false ∧ (rv = .ok → r'.missed = false) := by
      by_cases hrv : rv = .ok
      · rw [if_pos hrv, (hreports.of_ok hrv).2, List.nil_append] at hne
        exact ⟨(hreports.of_ok hrv).1, fun _ => hreports'.not_missed hne⟩
      · rw [if_neg hrv, List.append_nil] at hne
        exact ⟨hreports.not_missed hne, fun h => absurd h hrv⟩
    exact fault_of_missed hc hparam hfile hmissed.1 hmissed.2
  · rcases hcycle with ⟨hrv, hrv'⟩ | hnone
    · rw [herrors, if_pos hrv, (hreports.of_ok hrv).2, (hreports'.of_ok hrv').2] at hne
      exact absurd rfl hne
    · exact hnone

/-- A flag with two arguments, which the second line ends. -/
theorem initNewCycle_reported_daemon : ∃ c,
    initNewCycle ⟨⟨ascii "/", ascii "error.log", fun _ => 0⟩, ascii "lingx.pid", none⟩
      (fun _ => UNSET_INDEX) [] (ascii "lingx.conf")
      ⟨3, some (ascii "events \x7b\x7d\ndaemon on off;").length,
        readFrom (ascii "events \x7b\x7d\ndaemon on off;")⟩ = some c ∧
      c.errors = [.invalidNumberOfArguments (ascii "daemon")] ∧
      c.fault = false ∧ c.cycle = none := by
  obtain ⟨rv, r, rv', r', c, -, -, -, -, hc, -, -, -, hrejected⟩ := initNewCycle_reported
    ⟨⟨ascii "/", ascii "error.log", fun _ => 0⟩, ascii "lingx.pid", none⟩
    (fun _ => UNSET_INDEX) (show (3 : ℤ) ≠ -1 by decide)
    (reads_readFrom (ascii "events \x7b\x7d\ndaemon on off;")) [] (ascii "lingx.conf")
  have herrors : c.errors = [.invalidNumberOfArguments (ascii "daemon")] := by
    have hrun : (initNewCycle ⟨⟨ascii "/", ascii "error.log", fun _ => 0⟩, ascii "lingx.pid", none⟩
        (fun _ => UNSET_INDEX) [] (ascii "lingx.conf")
        ⟨3, some (ascii "events \x7b\x7d\ndaemon on off;").length,
          readFrom (ascii "events \x7b\x7d\ndaemon on off;")⟩).map NewCycle.errors =
        some [.invalidNumberOfArguments (ascii "daemon")] := by rfl
    rw [hc] at hrun
    exact Option.some.inj hrun
  exact ⟨c, hc, herrors, hrejected (by rw [herrors]; simp)⟩

end Lingx.Modules

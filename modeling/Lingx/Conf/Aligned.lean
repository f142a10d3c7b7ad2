import Lingx.Conf.Variable
import Lingx.Library.While

/-! The copy of a word ends with the word. The scan pairs each backslash with the byte
behind it by a flag, the copy by looking ahead; where no pair is open at the end of the
text for the scan there is none for the copy, so it stops at the byte that ends the word. -/

namespace Lingx.Conf

open Library

/-- The variables of the copy of a word where its loop begins. -/
def Copy.start (start last : ℕ) : Copy := ⟨start, 0, List.replicate (last - start) 0⟩

/-- The variables at the end of the loop. -/
def copyEnd (mem : ℕ → Byte) (start last : ℕ) : Copy :=
  copyLoop mem last (last - start) (.start start last)

/-- The variables at the beginning of each turn of the loop. -/
def copyTurns (mem : ℕ → Byte) (start last : ℕ) : List Copy :=
  While.turns (·.src < last) (copyByte mem) (last - start) (.start start last)

/-- A call of `read_token_` completes a word: the byte that is next ends it, and the turn
for this byte puts an argument behind the others. -/
structure Completes (cf₀ cf : ConfFile) (s : Scan) : Prop where
  called : Called cf₀
  reached : ∃ n cf' s' pread, Iterates cf₀ n cf' s' ∧ fill (cf'.withPread pread) s' = .more cf s
  argument : (turn cf.buffer.mem cf.buffer.pos s).scan.args ≠ s.args

/-- The copy of a word keeps to it: it ends at the byte behind the word, takes no byte
together with that one, looks behind no backslash beyond the word, and writes to the places
of its string only, each once. -/
structure CopyKeeps (mem : ℕ → Byte) (start last : ℕ) : Prop where
  ends : (copyEnd mem start last).src = last
  pairs : ∀ c ∈ copyTurns mem start last, (copyByte mem c).src ≤ last
  reads : ∀ c ∈ copyTurns mem start last, mem c.src = backslash → c.src + 1 < last
  writes : ∀ c ∈ copyTurns mem start last, c.dst < c.word.length
  written : (copyEnd mem start last).dst = (copyTurns mem start last).length
  written_le : (copyEnd mem start last).dst ≤ (Copy.start start last).word.length

section Copying
variable {mem : ℕ → Byte} {start last : ℕ} {c : Copy}

/-- The invariant of the loop: what is left of the text does not end within a pair, and no
more bytes have been written than read. -/
structure Copy.Aligned (mem : ℕ → Byte) (start last : ℕ) (c : Copy) : Prop where
  src_le : c.src ≤ last
  dst_le : start + c.dst ≤ c.src
  size : c.word.length = last - start
  unescaped : escapes (textFrom mem c.src last) = false

theorem textFrom_cons (mem : ℕ → Byte) (h : start < last) :
    textFrom mem start last = mem start :: textFrom mem (start + 1) last := by
  have hlen : last - start = last - (start + 1) + 1 := by omega
  rw [textFrom, hlen, List.range'_succ, List.map_cons, textFrom]

/-- A backslash where a turn begins is not the last byte of the word. -/
theorem Copy.Aligned.lookahead (g : c.Aligned mem start last) (h : c.src < last)
    (hback : mem c.src = backslash) : c.src + 1 < last := by
  by_contra hend
  have hesc := g.unescaped
  have hlast : c.src + 1 = last := by omega
  rw [textFrom_cons mem h, hlast, textFrom_self, hback] at hesc
  exact absurd hesc (by decide)

theorem Copy.Aligned.put {n : ℕ} (g : c.Aligned mem start last) (hn : 0 < n)
    (h : c.src + n ≤ last) (ch : Byte)
    (hesc : escapes (textFrom mem (c.src + n) last) = false) :
    (c.put ch n).Aligned mem start last where
  src_le := h
  dst_le := by
    have hle := g.dst_le
    simp only [Copy.put]
    omega
  size := by simpa [Copy.put] using g.size
  unescaped := hesc

theorem Copy.Aligned.copyByte (g : c.Aligned mem start last) (h : c.src < last) :
    (copyByte mem c).Aligned mem start last := by
  have hesc := g.unescaped
  rw [textFrom_cons mem h] at hesc
  by_cases hback : mem c.src = backslash
  · have hnext := g.lookahead h hback
    rw [textFrom_cons mem hnext] at hesc
    have hrest : escapes (textFrom mem (c.src + 2) last) = false := by
      rwa [hback, escapes_backslash] at hesc
    obtain ⟨ch, hpair | ⟨hone, hne⟩⟩ := copyByte_backslash hback
    · rw [hpair]
      exact g.put Nat.two_pos hnext ch hrest
    · rw [hone]
      refine g.put Nat.one_pos h ch ?_
      rwa [textFrom_cons mem hnext, escapes_cons hne]
  · rw [copyByte_of_ne rfl hback]
    exact g.put Nat.one_pos h _ (by rwa [escapes_cons hback] at hesc)

theorem copyByte_dst (mem : ℕ → Byte) (c : Copy) : (copyByte mem c).dst = c.dst + 1 := by
  simp only [copyByte]
  split_ifs <;> rfl

theorem copyLoop_eq_run (mem : ℕ → Byte) (last k : ℕ) (c : Copy) :
    copyLoop mem last k c = While.run (·.src < last) (copyByte mem) k c := by
  induction k generalizing c with
  | zero => rfl
  | succ k ih => rw [copyLoop, While.run, ih]

theorem copyEnd_eq_run (mem : ℕ → Byte) (start last : ℕ) : copyEnd mem start last =
    While.run (·.src < last) (copyByte mem) (last - start) (.start start last) :=
  copyLoop_eq_run ..

theorem aligned_start (hs : start ≤ last) (h : escapes (textFrom mem start last) = false) :
    (Copy.start start last).Aligned mem start last :=
  ⟨hs, le_rfl, List.length_replicate, h⟩

/-- A word with no pair open at its end is copied up to its end. -/
theorem copyKeeps_of_unescaped (hs : start ≤ last)
    (h : escapes (textFrom mem start last) = false) : CopyKeeps mem start last := by
  have hstart := aligned_start hs h
  have hbody (c : Copy) (g : c.Aligned mem start last) (hlt : c.src < last) := g.copyByte hlt
  have hturns := While.turns_invariant hbody hstart (last - start)
  have hend : (copyEnd mem start last).Aligned mem start last := by
    rw [copyEnd_eq_run]
    exact While.run_invariant hbody hstart _
  have hover : ¬ (copyEnd mem start last).src < last := by
    rw [copyEnd_eq_run]
    refine While.not_test_run (fun c => last - c.src) hbody (fun c _ hlt => ?_) hstart le_rfl
    have hsrc := copyByte_src mem c
    omega
  have hsrc : (copyEnd mem start last).src = last := le_antisymm hend.src_le (not_lt.mp hover)
  refine ⟨hsrc, fun c hc => ?_, fun c hc hback => ?_, fun c hc => ?_, ?_, ?_⟩
  · obtain ⟨g, hlt⟩ := hturns c hc
    exact (g.copyByte hlt).src_le
  · obtain ⟨g, hlt⟩ := hturns c hc
    exact g.lookahead hlt hback
  · obtain ⟨g, hlt⟩ := hturns c hc
    have hle := g.dst_le
    rw [g.size]
    omega
  · rw [copyEnd_eq_run, While.count_run (copyByte_dst mem)]
    exact Nat.zero_add _
  · have hle := hend.dst_le
    rw [hsrc] at hle
    rw [hstart.size]
    omega

end Copying

section Scan
variable {cf cf₀ : ConfFile} {s : Scan} {mem : ℕ → Byte} {pos : ℕ} {ch : Byte}

theorem afterQuote_args (mem : ℕ → Byte) (pos : ℕ) (ch : Byte) (s : Scan) :
    (afterQuote mem pos ch s).scan.args = s.args := by
  rw [afterQuote]
  split_ifs
  · rfl
  · rfl
  · rfl
  · rw [scanByte, if_pos rfl, startWord_args]
  · rfl

/-- Only a byte behind the first of a word, and not escaped, can complete one. -/
theorem flags_of_args_ne (h : (turn mem pos s).scan.args ≠ s.args) :
    s.lastSpace = false ∧ s.needSpace = false ∧ s.quoted = false := by
  obtain ⟨line, hl⟩ := countLine_eq (mem pos) s
  simp only [turn, hl] at h
  split_ifs at h with hcomment hquoted hneed
  · exact absurd rfl h
  · exact absurd rfl h
  · exact absurd (afterQuote_args ..) h
  · rw [scanByte] at h
    split_ifs at h with hlast
    · exact absurd (startWord_args ..) h
    · exact ⟨by simpa using hlast, by simpa using hneed, by simpa using hquoted⟩

/-- A scan behind the first byte of a word, and no pair open, is inside of it. -/
theorem Sound.inside_of_flags (h : Sound cf s) (hlast : s.lastSpace = false)
    (hneed : s.needSpace = false) (hquoted : s.quoted = false) : Inside cf s := by
  obtain ⟨l, hl, hesc⟩ := h
  obtain ⟨q, e, v, hw⟩ := hl.place_word hlast hneed
  obtain ⟨-, he⟩ := hesc q e v hw
  have hopen : s.quoted = e := by rw [hl.quoted, hw, Place.escaped]
  refine ⟨hlast, hneed, ?_⟩
  rw [hl.start_eq, ← he, ← hopen, hquoted]

theorem Completes.sound (h : Completes cf₀ cf s) : Sound cf s := by
  obtain ⟨n, cf', s', pread, hi, hf⟩ := h.reached
  have hpread : Sound (cf'.withPread pread) s' := hi.sound
  exact hpread.fill hf

theorem Completes.pos_lt (h : Completes cf₀ cf s) :
    cf.buffer.pos < cf.buffer.last ∧ cf.buffer.last ≤ cf.buffer.bend := by
  obtain ⟨n, cf', s', pread, hi, hf⟩ := h.reached
  obtain ⟨g, hs, -⟩ := hi.within h.called.within
  obtain ⟨g', -, hlt, -⟩ := fill_more (g.withPread pread) hs hf
  exact ⟨hlt, g'.last_le⟩

/-- The copy stays aligned with the scan. Where a call of `read_token_` completes a word, the
argument is the copy of the text up to the byte that ends the word, which is one of the
buffer; the copy ends at this byte, reads in the word only, and writes in its string. -/
theorem completes_copyKeeps (h : Completes cf₀ cf s) :
    (turn cf.buffer.mem cf.buffer.pos s).scan.args =
        s.args ++ [(copyEnd cf.buffer.mem s.start cf.buffer.pos).word] ∧
      cf.buffer.pos < cf.buffer.last ∧ cf.buffer.last ≤ cf.buffer.bend ∧
      CopyKeeps cf.buffer.mem s.start cf.buffer.pos := by
  obtain ⟨hlast, hneed, hquoted⟩ := flags_of_args_ne h.argument
  have hinside := h.sound.inside_of_flags hlast hneed hquoted
  obtain ⟨hopen, -, hle⟩ := h.sound.inside hinside
  obtain ⟨hpos, hbend⟩ := h.pos_lt
  refine ⟨?_, hpos, hbend, copyKeeps_of_unescaped hle hinside.unescaped⟩
  rcases hopen.turn cf.buffer.mem cf.buffer.pos with ⟨s', ht, -, -, hargs⟩ | hargs
  · refine absurd ?_ h.argument
    rw [ht]
    exact hargs
  · exact hargs

/-- The closing quote behind a pair of backslashes. -/
theorem completes_copyKeeps_quote :
    let text := ascii "a \"x\\\\\";"
    (copyEnd (text.getD · 0) 3 6).src = 6 ∧
      (copyEnd (text.getD · 0) 3 6).word = [0x78, backslash, 0] := by
  intro text
  have h : Completes (.param text) ((ConfFile.param text).setPos 6)
      ⟨3, 0, false, false, false, false, false, false, true, 0, [ascii "a"]⟩ := by
    refine ⟨.param text, ?_, by decide⟩
    have hi : Iterates (.param text) (0 + 6) ((ConfFile.param text).setPos (0 + 6))
        ⟨3, 0, false, false, false, false, false, false, true, 0, [ascii "a"]⟩ :=
      iterates_param .start rfl (by decide)
    exact ⟨_, _, _, fun _ _ => none, hi, fill_param (by decide) _⟩
  exact ⟨(completes_copyKeeps h).2.2.2.ends, by decide⟩

end Scan

end Lingx.Conf

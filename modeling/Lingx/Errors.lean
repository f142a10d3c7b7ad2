import Lingx.Strings

/-! Exceptions. The text of an `Error` is built in an array of fixed size that is not
initialized: the message, dots where it is too long, the number and the system's
message. The closing parenthesis takes the place of the terminator, and what stands
behind it is what the array held before. -/

namespace Lingx.Errors

open Library.Store Strings

def MAX_ERROR_STR : ℕ := 1024

/-- `')'` -/
def rparen : Byte := 41

/-- What the three turns of the loop in `Strerrno` write. -/
def dots : Bytes := [46, 46, 46]

/-- `" (%d: "` with its argument. -/
def errnoText (err : Int32) : Formatted where
  text := [32, 40] ++ decimal err.toInt ++ [58, 32]
  length_le := by
    have := length_decimal_le err
    simp only [List.length_append, List.length_cons, List.length_nil, INT_MAX]
    omega

/-- `Strerror`; `message` gives the system's messages. -/
def strerror (message : Int32 → Bytes) (err : Int32) (mem : Bytes) (estr size : ℕ) : Bytes × ℕ :=
  strncpy mem estr (message err) size

def strerrno (message : Int32 → Bytes) (mem : Bytes) (buf last : ℕ) (err : Int32) : Bytes × ℕ :=
  let (mem, buf) :=
    if buf + 50 > last then (store mem (last - 50) dots, last - 50 + 3) else (mem, buf)
  let (mem, buf) := slprintf mem buf last (errnoText err)
  let (mem, buf) := strerror message err mem buf (last - buf)
  if buf < last then (mem.set buf rparen, buf + 1) else (mem, buf)

/-- `Error::Error`: the array `errstr_` it leaves. -/
def error (message : Int32 → Bytes) (errstr : Bytes) (err : Int32) (fmt : Formatted) : Bytes :=
  let last := errstr.length
  let (mem, p) := vslprintf errstr 0 last fmt
  if err ≠ 0 then (strerrno message mem p last err).1 else mem

/-- What is read through `what()`; `none` if the array has no terminator. -/
def what (errstr : Bytes) : Option Bytes := if 0 ∈ errstr then some (cstr errstr) else none

/-- The message, or its beginning and dots if it does not leave 50 bytes. -/
def lead (text : Bytes) : Bytes :=
  if text.length + 50 ≤ MAX_ERROR_STR then text else text.take (MAX_ERROR_STR - 50) ++ dots

/-- The text of an exception, with so much of the system's message. -/
def errorText (message : Int32 → Bytes) (err : Int32) (text : Bytes) (k : ℕ) : Bytes :=
  lead text ++ (errnoText err).text ++ (cstr (message err)).take k ++ [rparen]

/-- The array once the message has been formatted into it. -/
def formatted (errstr text : Bytes) : Bytes :=
  text.take (MAX_ERROR_STR - 1) ++ 0 :: errstr.drop ((text.take (MAX_ERROR_STR - 1)).length + 1)

/-- A message in so much room, or its beginning and dots if it does not leave 50 bytes. -/
def leadIn (room : ℕ) (text : Bytes) : Bytes :=
  if text.length + 50 ≤ room then text else text.take (room - 50) ++ dots

/-- The message and the number of the error. -/
def errnoHead (room : ℕ) (err : Int32) (text : Bytes) : Bytes :=
  leadIn room text ++ (errnoText err).text

/-- The message, the number and as much of the system's message as there is room for. -/
def errnoLine (message : Int32 → Bytes) (room : ℕ) (err : Int32) (text : Bytes) : Bytes :=
  errnoHead room err text ++
    (cstr (message err)).take (room - 1 - (errnoHead room err text).length) ++ [rparen]

section Error
variable {message : Int32 → Bytes} {errstr : Bytes} {err : Int32} {fmt : Formatted} {text : Bytes}

theorem length_errnoText_le (err : Int32) : (errnoText err).text.length ≤ 15 := by
  have := length_decimal_le err
  simp only [errnoText, List.length_append, List.length_cons, List.length_nil]
  omega

theorem zero_notMem_errnoText (err : Int32) : 0 ∉ (errnoText err).text := by
  have := zero_notMem_decimal err.toInt
  simp [errnoText, this]

theorem vslprintf_formatted (h : errstr.length = MAX_ERROR_STR) (fmt : Formatted) :
    vslprintf errstr 0 MAX_ERROR_STR fmt =
      (formatted errstr fmt.text, (fmt.text.take (MAX_ERROR_STR - 1)).length) := by
  have hlen : (fmt.text.take (MAX_ERROR_STR - 1)).length + 1 ≤ errstr.length := by
    rw [h, List.length_take]
    simp only [MAX_ERROR_STR]
    omega
  have hpre : [] ++ (fmt.text.take (MAX_ERROR_STR - 1) ++ [0]) <+:
      store errstr 0 (fmt.text.take (MAX_ERROR_STR - 1) ++ [0]) :=
    prefix_store (List.nil_prefix) (by simpa using hlen)
  rw [vslprintf_eq fmt (by decide), Nat.zero_add]
  refine Prod.ext ?_ rfl
  have hmem := eq_append_drop hpre
  rw [drop_store (by simp)] at hmem
  simpa [formatted] using hmem

theorem length_formatted (h : errstr.length = MAX_ERROR_STR) (text : Bytes) :
    (formatted errstr text).length = MAX_ERROR_STR := by
  simp only [formatted, List.length_append, List.length_cons, List.length_drop, h,
    List.length_take, MAX_ERROR_STR]
  omega

section Strerrno
variable {mem s : Bytes} {p last room : ℕ}

theorem length_leadIn_le (h : 50 ≤ room) (text : Bytes) :
    (leadIn room text).length + 47 ≤ room := by
  unfold leadIn
  split_ifs with hlong
  · omega
  · simp only [List.length_append, List.length_take, dots, List.length_cons, List.length_nil]
    omega

/-- The part of a message that is kept, with the dots written behind it. -/
theorem wrote_leadIn (hpre : s ++ text.take (room - 1) <+: mem)
    (hp : p = (s ++ text.take (room - 1)).length) (hroom : s.length + room = last)
    (h50 : 50 ≤ room) (hlast : last ≤ mem.length) :
    Wrote mem (s ++ leadIn room text)
      (if p + 50 > last then (store mem (last - 50) dots, last - 50 + 3) else (mem, p)) := by
  rw [List.length_append, List.length_take] at hp
  by_cases hlong : text.length + 50 ≤ room
  · rw [List.take_of_length_le (by omega)] at hpre
    rw [leadIn, if_pos hlong, if_neg (by omega)]
    exact ⟨hpre, by rw [List.length_append]; omega, rfl, fun _ _ => rfl⟩
  · have hlen : (s ++ text.take (room - 50)).length = last - 50 := by
      rw [List.length_append, List.length_take]
      omega
    have hcut : s ++ text.take (room - 50) <+: mem := by
      refine List.IsPrefix.trans ?_ hpre
      exact (List.prefix_append_right_inj s).mpr (List.take_prefix_take_left (by omega))
    have hdots : (s ++ text.take (room - 50)).length + dots.length ≤ mem.length := by
      rw [hlen, dots, List.length_cons, List.length_cons, List.length_cons, List.length_nil]
      omega
    have hstore := prefix_store hcut hdots
    rw [hlen] at hstore
    rw [leadIn, if_neg hlong, if_pos (by omega), ← List.append_assoc]
    refine ⟨hstore, by rw [List.length_append, hlen, dots]; rfl, length_store, fun j hj => ?_⟩
    refine drop_store ?_
    rw [List.length_append, hlen] at hj
    exact hj.le

/-- `Strerrno` behind a message that was cut to leave room for a NUL. Behind the closing
parenthesis the buffer is as it was. -/
theorem strerrno_eq (message : Int32 → Bytes) (err : Int32)
    (hpre : s ++ text.take (room - 1) <+: mem) (hp : p = (s ++ text.take (room - 1)).length)
    (hroom : s.length + room = last) (h66 : 66 ≤ room) (hlast : last ≤ mem.length) :
    strerrno message mem p last err =
      (s ++ errnoLine message room err text ++
        mem.drop (s ++ errnoLine message room err text).length,
        (s ++ errnoLine message room err text).length) := by
  have hlead := length_leadIn_le (show 50 ≤ room by omega) text
  have hno := length_errnoText_le err
  have h₁ := wrote_leadIn hpre hp hroom (by omega) hlast
  simp only [strerrno]
  generalize hr : (if p + 50 > last then (store mem (last - 50) dots, last - 50 + 3)
    else (mem, p)) = r at h₁ ⊢
  have hpos := h₁.pos
  rw [List.length_append] at hpos
  -- the number, as a whole
  have hall : (errnoText err).text.take (last - r.2 - 1) = (errnoText err).text :=
    List.take_of_length_le (by omega)
  have h₂ := h₁.store 0 (show (s ++ leadIn room text).length + (errnoText err).text.length <
    mem.length by rw [List.length_append]; omega)
  rw [slprintf, vslprintf_eq _ (by omega), hall]
  rw [List.append_assoc, ← errnoHead] at h₂
  generalize (store r.1 r.2 ((errnoText err).text ++ [0]), r.2 + (errnoText err).text.length) = q
    at h₂ ⊢
  -- the system's message, up to the last byte but one
  have hpos₂ := h₂.pos
  have hhead : (errnoHead room err text).length =
      (leadIn room text).length + (errnoText err).text.length := List.length_append
  rw [List.length_append] at hpos₂
  have hq : last - q.2 = room - 1 - (errnoHead room err text).length + 1 := by omega
  have hmsgLen : ((cstr (message err)).take (room - 1 - (errnoHead room err text).length)).length ≤
    room - 1 - (errnoHead room err text).length := List.length_take_le _ _
  have h₃ := h₂.store 0 (show (s ++ errnoHead room err text).length +
    ((cstr (message err)).take (room - 1 - (errnoHead room err text).length)).length <
    mem.length by rw [List.length_append]; omega)
  rw [hq, strerror, strncpy_eq]
  generalize hw : (store q.1 q.2 ((cstr (message err)).take
    (room - 1 - (errnoHead room err text).length) ++ [0]), q.2 + ((cstr (message err)).take
    (room - 1 - (errnoHead room err text).length)).length) = w at h₃ ⊢
  -- the parenthesis in the place of the terminator
  have hlt : w.2 < last := by
    rw [← hw]
    dsimp only
    omega
  have hset := set_prefix h₃.pre (by rw [h₃.size, ← h₃.pos]; omega) rparen
  rw [← h₃.pos] at hset
  have hmem := eq_append_drop hset
  rw [List.drop_set_of_lt (by rw [h₃.pos]; simp), h₃.rest _ (by simp)] at hmem
  have hbody : s ++ errnoHead room err text ++
      (cstr (message err)).take (room - 1 - (errnoHead room err text).length) ++ [rparen] =
        s ++ errnoLine message room err text := by
    simp only [errnoLine, List.append_assoc]
  rw [hbody] at hmem
  rw [if_pos hlt]
  have hend := congrArg List.length hbody
  rw [List.length_append, ← h₃.pos, List.length_singleton] at hend
  exact Prod.ext hmem hend

end Strerrno

theorem lead_eq (text : Bytes) : lead text = leadIn MAX_ERROR_STR text := rfl

theorem length_lead_le (text : Bytes) : (lead text).length ≤ MAX_ERROR_STR - 47 := by
  have h := length_leadIn_le (show 50 ≤ MAX_ERROR_STR by decide) text
  rw [lead_eq]
  omega

/-- As much of the system's message as there is room for. -/
def roomFor (err : Int32) (text : Bytes) : ℕ :=
  MAX_ERROR_STR - 1 - (lead text ++ (errnoText err).text).length

/-- The array `errstr_`: the text, with the closing parenthesis last, and behind it what
the array held when the message was formatted. -/
theorem error_eq (h : errstr.length = MAX_ERROR_STR) (herr : err ≠ 0) :
    error message errstr err fmt =
      errorText message err fmt.text (roomFor err fmt.text) ++
        (formatted errstr fmt.text).drop
          (errorText message err fmt.text (roomFor err fmt.text)).length := by
  have hpre : [] ++ fmt.text.take (MAX_ERROR_STR - 1) <+: formatted errstr fmt.text :=
    List.prefix_append _ _
  simp only [error, h, if_pos herr, vslprintf_formatted h fmt]
  rw [strerrno_eq (p := (fmt.text.take (MAX_ERROR_STR - 1)).length) message err hpre rfl
    (Nat.zero_add _) (by decide) (length_formatted h fmt.text).ge]
  rfl

/-- Where the byte behind the text stands, if the system's message is not truncated. -/
def textEnd (message : Int32 → Bytes) (err : Int32) (text : Bytes) : ℕ :=
  (lead text ++ (errnoText err).text ++ cstr (message err)).length + 1

theorem textEnd_eq (message : Int32 → Bytes) (err : Int32) (text : Bytes) :
    textEnd message err text =
      (lead text ++ (errnoText err).text).length + (cstr (message err)).length + 1 := by
  rw [textEnd, List.length_append]

/-- The byte at a position is NUL once the message is formatted: one of the message, its
terminator, or one that the memory held. -/
def EndsAt (errstr text : Bytes) (pos : ℕ) : Prop :=
  pos < min text.length (MAX_ERROR_STR - 1) ∧ text[pos]? = some 0 ∨
    pos = min text.length (MAX_ERROR_STR - 1) ∨
    min text.length (MAX_ERROR_STR - 1) < pos ∧ errstr[pos]? = some 0

theorem endsAt_iff (text : Bytes) (pos : ℕ) :
    EndsAt errstr text pos ↔ (formatted errstr text)[pos]? = some 0 := by
  have hlen : (text.take (MAX_ERROR_STR - 1)).length = min text.length (MAX_ERROR_STR - 1) := by
    rw [List.length_take, min_comm]
  rw [EndsAt, formatted, ← hlen]
  rcases lt_trichotomy pos (text.take (MAX_ERROR_STR - 1)).length with hlt | rfl | hgt
  · have hkept : pos < MAX_ERROR_STR - 1 := by omega
    rw [List.getElem?_append_left hlt, List.getElem?_take_of_lt hkept]
    constructor
    · rintro (⟨_, h⟩ | h | ⟨h, _⟩)
      · exact h
      · omega
      · omega
    · exact fun h => .inl ⟨hlt, h⟩
  · simp
  · obtain ⟨j, rfl⟩ := Nat.exists_eq_add_of_lt hgt
    rw [List.getElem?_append_right (by omega)]
    generalize (text.take (MAX_ERROR_STR - 1)).length = l
    rw [show l + j + 1 - l = j + 1 by omega, List.getElem?_cons_succ, List.getElem?_drop,
      show l + 1 + j = l + j + 1 by omega]
    constructor
    · rintro (⟨h, _⟩ | h | ⟨_, h⟩)
      · omega
      · omega
      · exact h
    · exact fun h => .inr (.inr ⟨by omega, h⟩)

theorem length_errorText (message : Int32 → Bytes) (err : Int32) (text : Bytes) (k : ℕ) :
    (errorText message err text k).length =
      (lead text ++ (errnoText err).text).length + min k (cstr (message err)).length + 1 := by
  simp [errorText]
  omega

/-- The system's message is truncated exactly if the text takes the whole array. -/
theorem length_errorText_lt_iff (message : Int32 → Bytes) (err : Int32) (text : Bytes) :
    (errorText message err text (roomFor err text)).length < MAX_ERROR_STR ↔
      textEnd message err text < MAX_ERROR_STR := by
  have hlead := length_lead_le text
  have hno := length_errnoText_le err
  rw [length_errorText, textEnd, roomFor, List.length_append, List.length_append,
    List.length_append]
  simp only [MAX_ERROR_STR] at *
  omega

theorem length_errorText_eq (h : textEnd message err text < MAX_ERROR_STR) :
    (errorText message err text (roomFor err text)).length = textEnd message err text := by
  rw [textEnd_eq] at h
  rw [length_errorText, textEnd_eq, roomFor]
  omega

theorem length_errorText_le (message : Int32 → Bytes) (err : Int32) (text : Bytes) (k : ℕ) :
    (errorText message err text k).length ≤ textEnd message err text := by
  rw [length_errorText, textEnd_eq]
  omega

theorem zero_notMem_errorText (h : 0 ∉ lead text) (k : ℕ) :
    0 ∉ errorText message err text k := by
  have hmsg : 0 ∉ (cstr (message err)).take k := fun hmem =>
    zero_notMem_cstr _ (List.mem_of_mem_take hmem)
  simp [errorText, h, zero_notMem_errnoText, hmsg, rparen]

theorem cstr_append {s : Bytes} (h : 0 ∉ s) (rest : Bytes) : cstr (s ++ rest) = s ++ cstr rest :=
  List.takeWhile_append_of_pos fun _ hb => decide_eq_true fun h0 => h (h0 ▸ hb)

theorem zero_notMem_of_cstr_eq {s t : Bytes} (h : cstr s = t) : 0 ∉ t :=
  h ▸ zero_notMem_cstr s

/-- If the text is the string it should be, its terminator was there before. -/
theorem endsAt_of_what {k : ℕ} (h : errstr.length = MAX_ERROR_STR) (herr : err ≠ 0)
    (hk : what (error message errstr err fmt) = some (errorText message err fmt.text k)) :
    0 ∉ lead fmt.text ∧ EndsAt errstr fmt.text (textEnd message err fmt.text) := by
  have hsize := length_formatted h fmt.text
  rw [error_eq h herr] at hk
  obtain ⟨hmem, htext⟩ := Option.ite_none_right_eq_some.mp hk
  replace htext := Option.some.inj htext
  have hlead : 0 ∉ lead fmt.text := fun h0 => by
    refine zero_notMem_of_cstr_eq htext ?_
    simp [errorText, h0]
  refine ⟨hlead, (endsAt_iff fmt.text _).mpr ?_⟩
  -- the terminator is behind the text, so the text does not take the whole array
  have hW : 0 ∉ errorText message err fmt.text (roomFor err fmt.text) :=
    zero_notMem_errorText hlead _
  have hbehind := (List.mem_append.mp hmem).resolve_left hW
  have hlt : textEnd message err fmt.text < MAX_ERROR_STR := by
    refine (length_errorText_lt_iff message err fmt.text).mp ?_
    have := List.length_pos_of_mem hbehind
    rw [List.length_drop, hsize] at this
    omega
  -- and nothing stands between the text and its terminator
  rw [cstr_append hW, length_errorText_eq hlt] at htext
  have hlen := congrArg List.length htext
  rw [List.length_append, length_errorText_eq hlt] at hlen
  have hnil : cstr ((formatted errstr fmt.text).drop (textEnd message err fmt.text)) = [] := by
    have := length_errorText_le message err fmt.text k
    exact List.length_eq_zero_iff.mp (by omega)
  have hin : textEnd message err fmt.text < (formatted errstr fmt.text).length := by
    rwa [hsize]
  refine List.getElem?_eq_some_iff.mpr ⟨hin, ?_⟩
  by_contra hne
  rw [List.drop_eq_getElem_cons hin, cstr, List.takeWhile_cons_of_pos (by simpa using hne)] at hnil
  simp at hnil

theorem what_of_endsAt (h : errstr.length = MAX_ERROR_STR) (herr : err ≠ 0)
    (hlead : 0 ∉ lead fmt.text) (hend : EndsAt errstr fmt.text (textEnd message err fmt.text)) :
    what (error message errstr err fmt) =
      some (errorText message err fmt.text (roomFor err fmt.text)) := by
  obtain ⟨hin, hzero⟩ := List.getElem?_eq_some_iff.mp ((endsAt_iff fmt.text _).mp hend)
  have hlt : textEnd message err fmt.text < MAX_ERROR_STR := by
    rwa [length_formatted h] at hin
  rw [error_eq h herr, length_errorText_eq hlt, List.drop_eq_getElem_cons hin, hzero]
  rw [what, if_pos (by simp), cstr_append (zero_notMem_errorText hlead _)]
  simp [cstr]

/-- The text of an exception is a string, and the one it should be, exactly if the message
has no NUL in what is kept of it and the byte behind the whole text is NUL already. -/
theorem error_what_iff (h : errstr.length = MAX_ERROR_STR) (herr : err ≠ 0) :
    (∃ k, what (error message errstr err fmt) = some (errorText message err fmt.text k)) ↔
      0 ∉ lead fmt.text ∧ EndsAt errstr fmt.text (textEnd message err fmt.text) :=
  ⟨fun ⟨_, hk⟩ => endsAt_of_what h herr hk, fun ⟨hlead, hend⟩ =>
    ⟨_, what_of_endsAt h herr hlead hend⟩⟩

end Error

/-- `strerror(2)`. -/
def noSuchFile : Bytes := ascii "No such file or directory"

theorem error_what_iff_zeroed :
    ∃ k, what (error (fun _ => noSuchFile) (List.replicate 1024 0) 2 ⟨ascii "open", by decide⟩) =
      some (errorText (fun _ => noSuchFile) 2 (ascii "open") k) :=
  (error_what_iff List.length_replicate (by decide)).mpr
    ⟨by decide, .inr (.inr ⟨by decide, by rw [List.getElem?_replicate]; decide⟩)⟩

/-- In an array of other bytes there is none behind the parenthesis. -/
theorem error_what_fails : ¬ ∃ k,
    what (error (fun _ => noSuchFile) (List.replicate 1024 88) 2 ⟨ascii "open", by decide⟩) =
      some (errorText (fun _ => noSuchFile) 2 (ascii "open") k) := by
  rintro ⟨k, hk⟩
  obtain ⟨_, hend⟩ := endsAt_of_what List.length_replicate (by decide) hk
  rw [EndsAt, List.getElem?_replicate] at hend
  exact absurd hend (by decide)

end Lingx.Errors

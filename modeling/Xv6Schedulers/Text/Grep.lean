import Mathlib.Data.List.TakeWhile
import Xv6Schedulers.Text.Matcher

/-!
# Grep — the lines that `grep` writes

The loop of `grep` in `user/grep.c` over its buffer of 1024 bytes, and `strchr` of `user/ulib.c`.

* `scan` is the loop over the lines that are complete in the buffer, `grepLoop` the loop around `read`.
* `lines input` are the lines of the input; a line `fits` if it has a newline and, with it, at most
  1023 bytes.
* `grep_eq`: `grep` writes the matching lines up to the first that does not fit, however the input is
  cut into chunks.
-/

namespace Xv6Schedulers.Text

open List

/-- `'\n'`. -/
def newline : UInt8 := 0x0a

/-- The string that starts here in memory: the bytes before the NUL. -/
def str (s : List UInt8) : List UInt8 := s.takeWhile (· ≠ 0)

/-- `strchr(s, c)`, as an offset. -/
def strchr (c : UInt8) : List UInt8 → Option Nat
  | [] => none
  | x :: s => if x = 0 then none else if x = c then some 0 else (strchr c s).map (· + 1)

theorem strchr_lt {c : UInt8} {s : List UInt8} {j : Nat} (h : strchr c s = some j) : j < s.length := by
  induction s generalizing j with
  | nil => exact nomatch h
  | cons x s ih =>
    rw [strchr] at h
    split at h
    · exact nomatch h
    split at h
    · cases h
      exact Nat.succ_pos _
    · obtain ⟨k, hk, rfl⟩ := Option.map_eq_some_iff.1 h
      exact Nat.succ_lt_succ (ih hk)

/-- The loop over the lines of `buf` from `p` on: the lines it writes, and `buf` and `p` after it. -/
def scan (pattern buf : List UInt8) (p : Nat) : List (List UInt8) × List UInt8 × Nat :=
  match h : strchr newline (buf.drop p) with
  | none => ([], buf, p)
  | some j =>
      let q := p + j
      let cut := buf.set q 0
      if matchText pattern (str (cut.drop p)) then
        let restored := cut.set q newline
        let rest := scan pattern restored (q + 1)
        ((restored.drop p).take (q + 1 - p) :: rest.1, rest.2)
      else scan pattern cut (q + 1)
termination_by buf.length - p
decreasing_by
  all_goals
    have hlt := strchr_lt h
    simp only [length_drop, length_set] at hlt ⊢
    omega

/-- What `read` of up to `n` bytes gives when `input` is left: a byte at least if there is one and room
for it.  `chunk` says how many come at once. -/
def read (chunk : Nat → Nat) (n : Nat) (input : List UInt8) : List UInt8 :=
  input.take (min n (max 1 (chunk input.length)))

/-- The loop of `grep`, with `m` bytes of an unfinished line in `buf`: the lines it writes. -/
def grepLoop (pattern : List UInt8) (chunk : Nat → Nat) (buf : List UInt8) (m : Nat)
    (input : List UInt8) : List (List UInt8) :=
  let new := read chunk (1024 - m - 1) input
  if h : new = [] then []
  else
    let m₁ := m + new.length
    let filled := (buf.take m ++ new ++ buf.drop m₁).set m₁ 0
    let done := scan pattern filled 0
    -- `m > 0` holds here; `memmove(buf, p, m)`
    let m₂ := m₁ - done.2.2
    let shifted := (done.2.1.drop done.2.2).take m₂ ++ done.2.1.drop m₂
    done.1 ++ grepLoop pattern chunk shifted m₂ (input.drop new.length)
termination_by input.length
decreasing_by
  have hpos : 0 < (read chunk (1024 - m - 1) input).length := length_pos_iff.2 h
  have hle : (read chunk (1024 - m - 1) input).length ≤ input.length :=
    (take_sublist _ input).length_le
  rw [length_drop]
  omega

/-- `grep(pattern, fd)`, with `buf` as the call before left it. -/
def grep (pattern : List UInt8) (chunk : Nat → Nat) (buf input : List UInt8) : List (List UInt8) :=
  grepLoop pattern chunk buf 0 input

/-! ## Lines -/

/-- The lines of the input, each with its newline if it has one. -/
def lines : List UInt8 → List (List UInt8)
  | [] => []
  | c :: input =>
      if c = newline then [c] :: lines input
      else
        match lines input with
        | [] => [[c]]
        | l :: ls => (c :: l) :: ls

def hits (pattern line : List UInt8) : Bool := matchText pattern (line.filter (· ≠ newline))

/-- The line ends in a newline and fits into the buffer before its last byte. -/
def fits (line : List UInt8) : Bool := decide (newline ∈ line ∧ line.length < 1024)

/-- The matching lines up to the first that does not fit. -/
def printed (pattern input : List UInt8) : List (List UInt8) :=
  ((lines input).takeWhile fits).filter (hits pattern)

variable {pattern buf l x y r junk input : List UInt8} {p m : Nat} {chunk : Nat → Nat}

theorem lines_append_newline (hl : newline ∉ l) (y : List UInt8) :
    lines (l ++ newline :: y) = (l ++ [newline]) :: lines y := by
  induction l with
  | nil => simp [lines]
  | cons c l ih =>
    obtain ⟨hc, hl⟩ := not_or.1 (mt mem_cons.2 hl)
    rw [cons_append, lines, if_neg (Ne.symm hc), ih hl]
    rfl

theorem lines_cons_of_notMem {c : UInt8} (hx : newline ∉ c :: x) : lines (c :: x) = [c :: x] := by
  induction x generalizing c with
  | nil =>
    have hc := ne_of_not_mem_cons hx
    simp [lines, hc.symm]
  | cons d x ih =>
    obtain ⟨hc, hx⟩ := not_or.1 (mt mem_cons.2 hx)
    rw [lines, if_neg (Ne.symm hc), ih hx]

/-- A line without its newline is not written. -/
theorem printed_unterminated (hx : newline ∉ x) : printed pattern x = [] := by
  cases x with
  | nil => rfl
  | cons c x =>
    have hfits : fits (c :: x) = false := decide_eq_false fun h => hx h.1
    simp [printed, lines_cons_of_notMem hx, hfits]

theorem printed_line (hl : newline ∉ l) (hlen : l.length + 1 < 1024) (y : List UInt8) :
    printed pattern (l ++ newline :: y) =
      (if matchText pattern l then [l ++ [newline]] else []) ++ printed pattern y := by
  have hfits : fits (l ++ [newline]) = true := by simpa [fits] using hlen
  have htext : (l ++ [newline]).filter (· ≠ newline) = l := by
    have hne : ∀ c ∈ l, c ≠ newline := fun c hc h => hl (h ▸ hc)
    simpa using hne
  rw [printed, lines_append_newline hl, takeWhile_cons, if_pos hfits, filter_cons, hits, htext]
  split <;> rfl

/-- Behind a line that fills the buffer nothing is written. -/
theorem printed_long (hx : newline ∉ x) (hlen : 1023 ≤ x.length) (r : List UInt8) :
    printed pattern (x ++ r) = [] := by
  by_cases hr : newline ∈ r
  · obtain ⟨l, y, rfl, hl⟩ := eq_append_cons_of_mem hr
    have hxl : newline ∉ x ++ l := fun h => (mem_append.1 h).elim hx hl
    have hfits : fits (x ++ l ++ [newline]) = false := by
      refine decide_eq_false fun h => ?_
      have hlt := h.2
      simp only [length_append, length_singleton] at hlt
      omega
    rw [printed, ← append_assoc, lines_append_newline hxl, takeWhile_cons, hfits]
    rfl
  · exact printed_unterminated fun h => (mem_append.1 h).elim hx hr

/-! ## The buffer -/

theorem str_append_zero (hl : 0 ∉ l) (r : List UInt8) : str (l ++ 0 :: r) = l := by
  have hne : ∀ c ∈ l, decide (c ≠ 0) = true := fun c hc => decide_eq_true fun h => hl (h ▸ hc)
  rw [str, takeWhile_append_of_pos hne]
  simp

theorem strchr_first (hz : 0 ∉ l) (hl : newline ∉ l) (r : List UInt8) :
    strchr newline (l ++ newline :: r) = some l.length := by
  induction l with
  | nil => rfl
  | cons c l ih =>
    obtain ⟨hzc, hz⟩ := not_or.1 (mt mem_cons.2 hz)
    obtain ⟨hc, hl⟩ := not_or.1 (mt mem_cons.2 hl)
    rw [cons_append, strchr, if_neg (Ne.symm hzc), if_neg (Ne.symm hc), ih hz hl]
    rfl

theorem strchr_none (hz : 0 ∉ x) (hx : newline ∉ x) (r : List UInt8) :
    strchr newline (x ++ 0 :: r) = none := by
  induction x with
  | nil => rfl
  | cons c x ih =>
    obtain ⟨hzc, hz⟩ := not_or.1 (mt mem_cons.2 hz)
    obtain ⟨hc, hx⟩ := not_or.1 (mt mem_cons.2 hx)
    rw [cons_append, strchr, if_neg (Ne.symm hzc), if_neg (Ne.symm hc), ih hz hx]
    rfl

theorem drop_set_at {b : UInt8} (hbuf : buf.drop p = l ++ b :: r) (v : UInt8) :
    (buf.set (p + l.length) v).drop p = l ++ v :: r := by
  rw [drop_set, if_neg (by omega), hbuf, Nat.add_sub_cancel_left, set_append,
    if_neg (Nat.lt_irrefl _), Nat.sub_self]
  rfl

theorem drop_past {b : UInt8} (hbuf : buf.drop p = l ++ b :: r) : buf.drop (p + l.length + 1) = r := by
  rw [Nat.add_assoc, ← drop_drop, hbuf]
  simp

/-- The loop has written the lines complete in `x` and stands at the unfinished one. -/
structure Scanned (pattern buf x : List UInt8) (p : Nat)
    (done : List (List UInt8) × List UInt8 × Nat) (c : List UInt8) : Prop where
  rest : ∃ junk, done.2.1.drop done.2.2 = c ++ 0 :: junk
  unfinished : newline ∉ c
  suffix : c <:+ x
  position : done.2.2 + c.length = p + x.length
  length : done.2.1.length = buf.length
  written : ∀ r, printed pattern (x ++ r) = done.1 ++ printed pattern (c ++ r)

/-- One round of the loop: the line is written if it matches, and the scan goes on behind it. -/
theorem Scanned.line {after c : List UInt8} {done : List (List UInt8) × List UInt8 × Nat}
    (h : Scanned pattern after y (p + l.length + 1) done c) (hafter : after.length = buf.length)
    (hl : newline ∉ l) (hlen : (l ++ newline :: y).length < 1024) :
    Scanned pattern buf (l ++ newline :: y) p
      ((if matchText pattern l then [l ++ [newline]] else []) ++ done.1, done.2) c where
  rest := h.rest
  unfinished := h.unfinished
  suffix := (h.suffix.trans (suffix_cons newline y)).trans (suffix_append l _)
  position := by
    have hpos := h.position
    simp only [length_append, length_cons]
    omega
  length := h.length.trans hafter
  written r := by
    have hshort : l.length + 1 < 1024 := by
      simp only [length_append, length_cons] at hlen
      omega
    rw [append_assoc, cons_append, printed_line hl hshort, h.written r, append_assoc]

theorem exists_line {j : Nat} (hz : 0 ∉ x) (h : strchr newline (x ++ 0 :: junk) = some j) :
    ∃ l y, x = l ++ newline :: y ∧ newline ∉ l ∧ 0 ∉ l ∧ 0 ∉ y ∧ j = l.length := by
  by_cases hmem : newline ∈ x
  · obtain ⟨l, y, rfl, hl⟩ := eq_append_cons_of_mem hmem
    obtain ⟨hzl, hzy⟩ := not_or.1 (mt mem_append.2 hz)
    rw [append_assoc, cons_append, strchr_first hzl hl] at h
    exact ⟨l, y, rfl, hl, hzl, mt (mem_cons_of_mem newline) hzy, (Option.some.inj h).symm⟩
  · rw [strchr_none hz hmem] at h
    exact nomatch h

theorem scan_spec (pattern : List UInt8) (hz : 0 ∉ x) (hbuf : buf.drop p = x ++ 0 :: junk)
    (hlen : x.length < 1024) :
    ∃ c, Scanned pattern buf x p (scan pattern buf p) c := by
  fun_induction scan pattern buf p generalizing x with
  | case1 buf p h =>
    have hx : newline ∉ x := by
      intro hmem
      obtain ⟨l, y, rfl, hl⟩ := eq_append_cons_of_mem hmem
      rw [hbuf, append_assoc, cons_append,
        strchr_first (fun h => hz (mem_append_left _ h)) hl] at h
      exact nomatch h
    exact ⟨x, ⟨junk, hbuf⟩, hx, suffix_rfl, rfl, rfl, fun r => rfl⟩
  | case2 =>
    rename_i buf p j h q cut hmatch restored rest ih
    obtain ⟨l, y, rfl, hl, hzl, hzy, rfl⟩ := exists_line hz (hbuf ▸ h)
    rw [append_assoc, cons_append] at hbuf
    have hcut := drop_set_at hbuf 0
    have hrestored := drop_set_at hcut newline
    have hshort : y.length < 1024 := by
      simp only [length_append, length_cons] at hlen
      omega
    obtain ⟨c, hc⟩ := ih hzy (drop_past hrestored) hshort
    have hlength : restored.length = buf.length := by simp [restored, cut]
    have hround := hc.line hlength hl hlen
    refine ⟨c, ?_⟩
    rw [hcut, str_append_zero hzl] at hmatch
    rw [if_pos hmatch] at hround
    have hwrite : (restored.drop p).take (q + 1 - p) = l ++ [newline] := by
      have hcount : q + 1 - p = l.length + 1 := by
        show p + l.length + 1 - p = l.length + 1
        omega
      rw [hrestored, hcount]
      simp [take_append]
    rw [hwrite]
    exact hround
  | case3 =>
    rename_i buf p j h q cut hmatch ih
    obtain ⟨l, y, rfl, hl, hzl, hzy, rfl⟩ := exists_line hz (hbuf ▸ h)
    rw [append_assoc, cons_append] at hbuf
    have hcut := drop_set_at hbuf 0
    have hshort : y.length < 1024 := by
      simp only [length_append, length_cons] at hlen
      omega
    obtain ⟨c, hc⟩ := ih hzy (drop_past hcut) hshort
    have hround := hc.line (length_set : cut.length = buf.length) hl hlen
    refine ⟨c, ?_⟩
    rw [hcut, str_append_zero hzl] at hmatch
    rw [if_neg hmatch] at hround
    exact hround

/-! ## The loop around `read` -/

theorem read_append_drop (chunk : Nat → Nat) (n : Nat) (input : List UInt8) :
    read chunk n input ++ input.drop (read chunk n input).length = input := by
  rw [read, length_take]
  nth_rewrite 1 [take_eq_take_min]
  exact take_append_drop _ _

theorem read_length_le (chunk : Nat → Nat) (n : Nat) (input : List UInt8) :
    (read chunk n input).length ≤ n := by
  rw [read, length_take]
  omega

theorem read_eq_nil {n : Nat} (h : read chunk n input = []) : n = 0 ∨ input = [] := by
  rcases take_eq_nil_iff.1 h with hzero | hnil
  · left
    omega
  · exact .inr hnil

theorem grepLoop_eq (hbuf : buf.length = 1024) (hm : m < 1024) (hline : newline ∉ buf.take m)
    (hz : 0 ∉ buf.take m ++ input) :
    grepLoop pattern chunk buf m input = printed pattern (buf.take m ++ input) := by
  induction hn : input.length using Nat.strong_induction_on generalizing buf m input with
  | _ n ih =>
  have htake : (buf.take m).length = m := by
    rw [length_take]
    omega
  have hnew := read_append_drop chunk (1024 - m - 1) input
  have hroom := read_length_le chunk (1024 - m - 1) input
  have hnil := @read_eq_nil input chunk (1024 - m - 1)
  rw [grepLoop]
  generalize read chunk (1024 - m - 1) input = new at hnew hroom hnil ⊢
  split
  next hempty =>
    rcases hnil hempty with hfull | rfl
    · exact (printed_long hline (by omega) input).symm
    · rw [append_nil, printed_unterminated hline]
  next hne =>
    extract_lets m₁ filled done m₂ shifted
    have hpos := length_pos_iff.2 hne
    have hm₁ : m₁ < 1024 := by omega
    have hlen : (buf.take m ++ new).length = m₁ := by rw [length_append, htake]
    have hfilled : filled.drop 0 = (buf.take m ++ new) ++ 0 :: buf.drop (m₁ + 1) := by
      show ((buf.take m ++ new ++ buf.drop m₁).set m₁ 0).drop 0 = _
      rw [drop_zero, drop_eq_getElem_cons (by omega), set_append, hlen,
        if_neg (Nat.lt_irrefl _), Nat.sub_self]
      rfl
    obtain ⟨hzc, hzr⟩ : 0 ∉ buf.take m ++ new ∧ 0 ∉ input.drop new.length := by
      rw [← hnew, ← append_assoc] at hz
      exact not_or.1 (mt mem_append.2 hz)
    obtain ⟨c, hc⟩ := scan_spec pattern hzc hfilled (hlen ▸ hm₁)
    have hposition : done.2.2 + c.length = 0 + m₁ := hlen ▸ hc.position
    have hm₂ : m₂ = c.length := by
      show m₁ - done.2.2 = c.length
      omega
    obtain ⟨junk, hrest⟩ := hc.rest
    have hfull : done.2.1.length = 1024 := by
      have hlength := congrArg length hfilled
      simp only [drop_zero, length_append, length_cons, length_drop] at hlength hlen
      have hsame : done.2.1.length = filled.length := hc.length
      omega
    have hshifted : shifted.take m₂ = c := by
      show ((done.2.1.drop done.2.2).take m₂ ++ done.2.1.drop m₂).take m₂ = c
      rw [hm₂, hrest]
      simp
    have hlength : shifted.length = 1024 := by
      show ((done.2.1.drop done.2.2).take m₂ ++ done.2.1.drop m₂).length = 1024
      rw [hm₂, hrest, take_left' rfl, length_append, length_drop]
      omega
    have hnext := ih (input.drop new.length).length ?_ hlength (by omega)
      (hshifted ▸ hc.unfinished) ?_ rfl
    · rw [hnext, hshifted, ← hc.written, append_assoc, hnew]
    · have hinput := congrArg length hnew
      rw [length_append] at hinput
      omega
    · rw [hshifted]
      exact fun h => (mem_append.1 h).elim (fun h => hzc (hc.suffix.mem h)) hzr

/-- `grep` writes the matching lines up to the first that does not fit. -/
theorem grep_eq (hbuf : buf.length = 1024) (hz : 0 ∉ input) :
    grep pattern chunk buf input = printed pattern input := by
  have hline : newline ∉ buf.take 0 := not_mem_nil
  exact grepLoop_eq hbuf (by decide) hline hz

end Xv6Schedulers.Text

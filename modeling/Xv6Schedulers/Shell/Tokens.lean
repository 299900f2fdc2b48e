import Mathlib.Data.List.GetD
import Xv6Schedulers.Shell.Parser

/-!
# Tokens — the line as a sequence of tokens

* `tokens line`: what `gettoken` returns when it is called again and again.
* `At line s ts`: at the position `s` the tokens `ts` are left.  In these terms `gettoken` takes the
  first token off (`At.gettoken_cons`), and `peek` looks at its first character (`At.peek`).
* `tokenAt_found`: where tokens end.
-/

namespace Xv6Schedulers.Shell

open Lib List

variable {line : List UInt8} {s : Nat} {p : UInt8 → Bool}

/-! ## Scanning -/

theorem le_scan : s ≤ scan p line s := Nat.le_add_right _ _

theorem scan_le (hs : s ≤ line.length) : scan p line s ≤ line.length := by
  have hlen := (List.takeWhile_prefix p (l := line.drop s)).length_le
  rw [length_drop] at hlen
  simp only [scan]
  omega

theorem char_of_lt (h : s < line.length) : char line s = line.get ⟨s, h⟩ := by
  rw [char, getD_eq_getElem line 0 h]
  rfl

theorem scan_inside {i : Nat} (hle : s ≤ i) (hlt : i < scan p line s) :
    i < line.length ∧ p (char line i) = true := by
  obtain ⟨j, rfl⟩ := Nat.exists_eq_add_of_le hle
  have hj : j < ((line.drop s).takeWhile p).length := by
    simp only [scan] at hlt
    omega
  have hpre := takeWhile_prefix p (l := line.drop s)
  have hlen := Nat.lt_of_lt_of_le hj hpre.length_le
  rw [length_drop] at hlen
  have hi : s + j < line.length := by omega
  refine ⟨hi, ?_⟩
  have hp := mem_takeWhile_imp (getElem_mem hj)
  rw [hpre.getElem hj, getElem_drop] at hp
  rw [char_of_lt hi]
  exact hp

theorem scan_stops (hlt : scan p line s < line.length) : p (char line (scan p line s)) = false := by
  have hdrop : ∀ l : List UInt8, l.drop (l.takeWhile p).length = l.dropWhile p := by
    intro l
    induction l with
    | nil => rfl
    | cons c l ih =>
      by_cases hc : p c = true
      · simp [hc, ih]
      · simp [hc]
  have heq : line.drop (scan p line s) = (line.drop s).dropWhile p := by
    rw [← hdrop, drop_drop]
    rfl
  have hpos : 0 < ((line.drop s).dropWhile p).length := by
    rw [← heq, length_drop]
    omega
  have hnot := dropWhile_get_zero_not p (line.drop s) hpos
  have hhead : ((line.drop s).dropWhile p).get ⟨0, hpos⟩ = char line (scan p line s) := by
    simp only [← heq, get_eq_getElem, getElem_drop, Nat.add_zero]
    exact (char_of_lt hlt).symm
  rw [hhead] at hnot
  exact Bool.eq_false_iff.2 hnot

theorem scan_eq_self (h : s < line.length → p (char line s) = false) : scan p line s = s := by
  by_contra hne
  have hlt : s < scan p line s := Nat.lt_of_le_of_ne le_scan (Ne.symm hne)
  obtain ⟨hs, hp⟩ := scan_inside (Nat.le_refl s) hlt
  rw [h hs] at hp
  exact nomatch hp

theorem scan_scan : scan p line (scan p line s) = scan p line s := scan_eq_self scan_stops

/-! ## `gettoken` -/

theorem char_eq_zero (hz : 0 ∉ line) (hs : s ≤ line.length) : char line s = 0 ↔ s = line.length := by
  constructor
  · intro hc
    by_contra hne
    have hlt : s < line.length := Nat.lt_of_le_of_ne hs hne
    rw [char_of_lt hlt] at hc
    exact hz (hc ▸ getElem_mem hlt)
  · rintro rfl
    rw [char, getD_eq_default _ _ (Nat.le_refl _)]

/-- The first character of a token; words have none that matters. -/
def Kind.symbol : Kind → UInt8
  | .word => 0
  | .input => 0x3c
  | .output => 0x3e
  | .append => 0x3e
  | .bar => 0x7c
  | .amp => 0x26
  | .semi => 0x3b
  | .lparen => 0x28
  | .rparen => 0x29

/-- What `gettoken` finds at a character that is not whitespace. -/
structure Found (line : List UInt8) (s : Nat) (k : Kind) (e : Nat) : Prop where
  lt : s < e
  le : e ≤ line.length
  symbol : k ≠ .word → char line s = k.symbol
  word : k = .word → e = scan inWord line s ∧ inWord (char line s) = true
  /-- only `>>` has more than one character and is not a word -/
  inner : k ≠ .word → s + 1 < e → e = s + 2 ∧ char line s = 0x3e

theorem Found.far {k : Kind} {e : Nat} (h : Found line (scan isSpace line s) k e) :
    s < scan isSpace line e := calc
  s ≤ scan isSpace line s := le_scan
  _ < e := h.lt
  _ ≤ scan isSpace line e := le_scan

/-- The `switch` of `gettoken`: at the end of the line there is no token, elsewhere there is one. -/
theorem tokenAt_found (hz : 0 ∉ line) (hs : s < line.length)
    (hspace : isSpace (char line s) = false) :
    ∃ k e, tokenAt line s = (some k, e) ∧ Found line s k e := by
  have hne : char line s ≠ 0 := fun hc => Nat.ne_of_lt hs ((char_eq_zero hz hs.le).1 hc)
  have single : ∀ k : Kind, k ≠ .word → char line s = k.symbol → Found line s k (s + 1) :=
    fun k hk hc => ⟨Nat.lt_succ_self s, hs, fun _ => hc, fun h => absurd h hk,
      fun _ h => absurd h (Nat.lt_irrefl _)⟩
  unfold tokenAt
  split
  · exact absurd ‹_› hne
  · exact ⟨.bar, _, rfl, single .bar (by decide) ‹_›⟩
  · exact ⟨.lparen, _, rfl, single .lparen (by decide) ‹_›⟩
  · exact ⟨.rparen, _, rfl, single .rparen (by decide) ‹_›⟩
  · exact ⟨.semi, _, rfl, single .semi (by decide) ‹_›⟩
  · exact ⟨.amp, _, rfl, single .amp (by decide) ‹_›⟩
  · exact ⟨.input, _, rfl, single .input (by decide) ‹_›⟩
  · next hc =>
      split
      · next hc' =>
          have hlt : s + 1 < line.length := by
            refine Nat.lt_of_le_of_ne hs fun heq => ?_
            rw [(char_eq_zero hz hs).2 heq] at hc'
            exact absurd hc' (by decide)
          exact ⟨.append, _, rfl, ⟨Nat.lt_add_of_pos_right Nat.two_pos, hlt, fun _ => hc,
            (fun h => nomatch h), fun _ _ => ⟨rfl, hc⟩⟩⟩
      · exact ⟨.output, _, rfl, single .output (by decide) hc⟩
  · next h0 hbar hlp hrp hsemi hamp hin hout =>
      -- none of the symbols, and no whitespace
      have hword : inWord (char line s) = true := by
        simp only [isSpace] at hspace
        simp only [inWord, hspace, symbols, contains_cons, contains_nil, Bool.not_false,
          Bool.true_and, Bool.or_false, Bool.not_eq_true', Bool.or_eq_false_iff, beq_eq_false_iff_ne]
        exact ⟨hin, hbar, hout, hamp, hsemi, hlp, hrp⟩
      refine ⟨.word, _, rfl, ⟨?_, scan_le hs.le, fun h => absurd rfl h, fun _ => ⟨rfl, hword⟩,
        fun h => absurd rfl h⟩⟩
      refine Nat.lt_of_le_of_ne le_scan fun heq => ?_
      have hstop : inWord (char line (scan inWord line s)) = false := scan_stops (heq ▸ hs)
      rw [← heq, hword] at hstop
      exact nomatch hstop

theorem tokenAt_end (hz : 0 ∉ line) : tokenAt line line.length = (none, line.length) := by
  unfold tokenAt
  rw [(char_eq_zero hz (Nat.le_refl _)).2 rfl]
  rfl

/-- What `gettoken` returns when it is called again and again. -/
def tokensFrom (line : List UInt8) : Nat → Nat → List Token
  | 0, _ => []
  | n + 1, s =>
      match gettoken line s with
      | .ok ((some k, w), s) => ⟨k, w.q, w.eq⟩ :: tokensFrom line n s
      | _ => []

def tokens (line : List UInt8) : List Token := tokensFrom line (line.length + 1) 0

/-- At the position `s` the tokens `ts` are left. -/
inductive At (line : List UInt8) : Nat → List Token → Prop
  | done {s : Nat} : scan isSpace line s = line.length → At line s []
  | more {s e : Nat} {k : Kind} {ts : List Token} :
      scan isSpace line s < line.length → tokenAt line (scan isSpace line s) = (some k, e) →
      Found line (scan isSpace line s) k e → At line (scan isSpace line e) ts →
      At line s (⟨k, scan isSpace line s, e⟩ :: ts)

theorem at_tokensFrom (hz : 0 ∉ line) {n : Nat} (hs : s ≤ line.length) (hn : line.length < s + n) :
    At line s (tokensFrom line n s) := by
  induction n generalizing s with
  | zero => omega
  | succ n ih =>
    have hle : scan isSpace line s ≤ line.length := scan_le hs
    rcases Nat.lt_or_eq_of_le hle with hlt | heq
    · obtain ⟨k, e, htok, hfound⟩ := tokenAt_found hz hlt (scan_stops hlt)
      have hstep : tokensFrom line (n + 1) s =
          ⟨k, scan isSpace line s, e⟩ :: tokensFrom line n (scan isSpace line e) := by
        simp only [tokensFrom, gettoken, htok]
      rw [hstep]
      have hfar := hfound.far
      exact .more hlt htok hfound (ih (scan_le hfound.le) (by omega))
    · have hstep : tokensFrom line (n + 1) s = [] := by
        simp only [tokensFrom, gettoken, heq, tokenAt_end hz]
      rw [hstep]
      exact .done heq

theorem at_tokens (hz : 0 ∉ line) : At line 0 (tokens line) :=
  at_tokensFrom hz (Nat.zero_le _) (by omega)

namespace At

variable {t : Token} {ts : List Token}

theorem skip (h : At line s ts) : At line (scan isSpace line s) ts := by
  cases h with
  | done heq => exact .done (scan_scan.trans heq)
  | more hlt htok hfound hrest =>
    rw [← scan_scan] at hlt htok hfound
    have hmore := At.more hlt htok hfound hrest
    rwa [scan_scan] at hmore

theorem length_le (h : At line s ts) (hs : s ≤ line.length) : s + ts.length ≤ line.length := by
  induction h with
  | done => exact hs
  | @more s e k ts _ _ hfound _ ih =>
    have hrest := ih (scan_le hfound.le)
    have hfar := hfound.far
    rw [length_cons]
    omega

theorem gettoken_cons (h : At line s (t :: ts)) :
    ∃ s', gettoken line s = .ok ((some t.kind, ⟨t.q, t.eq⟩), s') ∧ At line s' ts := by
  cases h with
  | more hlt htok hfound hrest => exact ⟨_, by simp only [gettoken, htok], hrest⟩

theorem gettoken_nil (hz : 0 ∉ line) (h : At line s []) :
    ∃ w s', gettoken line s = .ok ((none, w), s') ∧ At line s' [] := by
  cases h with
  | done heq =>
    refine ⟨⟨line.length, line.length⟩, scan isSpace line line.length, ?_, ?_⟩
    · simp only [gettoken, heq, tokenAt_end hz]
    · refine .done (scan_scan.trans (scan_eq_self fun hlt => absurd hlt (Nat.lt_irrefl _)))

end At

/-- The next token begins with one of the characters. -/
def heads (toks : List UInt8) : List Token → Bool
  | [] => false
  | t :: _ => toks.contains t.kind.symbol

theorem At.peek (hz : 0 ∉ line) {ts : List Token} (h : At line s ts) (toks : List UInt8)
    (htoks : ∀ c ∈ toks, c ∈ symbols) :
    ∃ s', Shell.peek line toks s = .ok (heads toks ts, s') ∧ At line s' ts := by
  refine ⟨scan isSpace line s, ?_, h.skip⟩
  simp only [Shell.peek]
  have hzero : toks.contains 0 = false := by
    rw [contains_eq_mem, decide_eq_false_iff_not]
    exact fun hmem => absurd (htoks 0 hmem) (by decide)
  cases h with
  | done heq =>
    rw [heq, (char_eq_zero hz (Nat.le_refl _)).2 rfl]
    rfl
  | @more _ e k ts hlt htok hfound hrest =>
    have hne : char line (scan isSpace line s) ≠ 0 := fun hc =>
      Nat.ne_of_lt hlt ((char_eq_zero hz hlt.le).1 hc)
    rw [bne_iff_ne.2 hne, Bool.true_and]
    by_cases hk : k = .word
    · -- a word begins with none of the symbols
      subst hk
      have hin := (hfound.word rfl).2
      have hnot : toks.contains (char line (scan isSpace line s)) = false := by
        rw [contains_eq_mem, decide_eq_false_iff_not]
        intro hmem
        simp only [inWord, contains_eq_mem, htoks _ hmem, decide_true, Bool.not_true,
          Bool.and_false] at hin
        exact nomatch hin
      rw [hnot, heads, Kind.symbol, hzero]
    · rw [hfound.symbol hk]
      rfl

end Xv6Schedulers.Shell

import Xv6Schedulers.Shell.Grammar

/-!
# Terminate — the words survive `nulterminate`

A word ends at a character that is in no word, or at the end of the line.  So the NUL that is written
there is in no word; it may take the place of an operator that has been parsed.

* `nulterminate_char`: the buffer afterwards.
* `Derives.words`: the words of a tree are tokens of the line.
* `parsecmd_strings`: what the strings of the tree are.
-/

namespace Xv6Schedulers.Shell

open List

variable {line : List UInt8} {s : Nat} {ts : List Token}

/-- The words of a tree: arguments and names of files. -/
def Cmd.words : Cmd → List Word
  | .exec argv => argv
  | .redir cmd r => cmd.words ++ [r.file]
  | .pipe left right => left.words ++ right.words
  | .list left right => left.words ++ right.words
  | .back cmd => cmd.words

/-- The `argv` of the `EXEC` nodes. -/
def Cmd.argvs : Cmd → List (List Word)
  | .exec argv => [argv]
  | .redir cmd _ => cmd.argvs
  | .pipe left right => left.argvs ++ right.argvs
  | .list left right => left.argvs ++ right.argvs
  | .back cmd => cmd.argvs

/-- The C string at `q`. -/
def cstring (buf : List UInt8) (q : Nat) : List UInt8 := (buf.drop q).takeWhile (· != 0)

/-! ## The buffer -/

theorem char_set (buf : List UInt8) (e i : Nat) :
    char (buf.set e 0) i = if i = e then 0 else char buf i := by
  simp only [char, getD_eq_getElem?_getD, getElem?_set]
  by_cases h : e = i
  · subst h
    by_cases hlt : e < buf.length <;> simp [hlt]
  · simp [h, Ne.symm h]

/-- NUL is written at the ends of the words, and nowhere else. -/
theorem nulterminate_char (c : Cmd) (buf : List UInt8) (i : Nat) :
    char (nulterminate c buf) i = if i ∈ c.words.map Word.eq then 0 else char buf i := by
  have hjoin : ∀ (l r : List Word) (x : UInt8),
      (if i ∈ r.map Word.eq then 0 else if i ∈ l.map Word.eq then 0 else x) =
        if i ∈ (l ++ r).map Word.eq then 0 else x := by
    intro l r x
    rw [map_append]
    by_cases hl : i ∈ l.map Word.eq <;> by_cases hr : i ∈ r.map Word.eq <;>
      simp only [mem_append, hl, hr, or_self, or_true, true_or, if_true, if_false]
  have hone : ∀ w : Word, i ∈ [w].map Word.eq ↔ i = w.eq := fun _ => mem_singleton
  induction c generalizing buf with
  | exec argv =>
    show char (argv.foldl (fun buf w => buf.set w.eq 0) buf) i =
      if i ∈ argv.map Word.eq then 0 else char buf i
    induction argv generalizing buf with
    | nil => rfl
    | cons w argv ih =>
      rw [foldl_cons, ih, char_set, ← singleton_append, ← hjoin]
      simp only [hone]
  | redir cmd r ih =>
    rw [nulterminate, char_set, ih, Cmd.words, ← hjoin]
    simp only [hone]
  | pipe left right ihl ihr => rw [nulterminate, ihr, ihl, hjoin, Cmd.words]
  | list left right ihl ihr => rw [nulterminate, ihr, ihl, hjoin, Cmd.words]
  | back cmd ih => rw [nulterminate, ih, Cmd.words]

/-! ## Words are tokens -/

/-- The words of the tokens. -/
def texts (ts : List Token) : List Word := (ts.filter fun t => t.kind = .word).map Token.text

theorem texts_append (ts us : List Token) : texts (ts ++ us) = texts ts ++ texts us := by
  rw [texts, filter_append, map_append]
  rfl

theorem mem_texts {w : Word} : w ∈ texts ts ↔ ∃ t ∈ ts, t.kind = .word ∧ t.text = w := by
  simp [texts, and_assoc]

theorem texts_mono {us : List Token} (h : ts ⊆ us) : texts ts ⊆ texts us := by
  intro w hw
  obtain ⟨t, ht, hk⟩ := mem_texts.1 hw
  exact mem_texts.2 ⟨t, h ht, hk⟩

theorem wrap_words (c : Cmd) (rs : List Redir) :
    (wrap c rs).words = c.words ++ rs.map Redir.file ∧ (wrap c rs).argvs = c.argvs := by
  induction rs generalizing c with
  | nil => simp [wrap]
  | cons r rs ih =>
    have hrest := ih (.redir c r)
    refine ⟨hrest.1.trans ?_, hrest.2⟩
    rw [Cmd.words, append_assoc]
    rfl

theorem backs_words (n : Nat) (c : Cmd) :
    (backs n c).words = c.words ∧ (backs n c).argvs = c.argvs := by
  induction n generalizing c with
  | zero => exact ⟨rfl, rfl⟩
  | succ n ih => exact ih (.back c)

theorem redirOf_file {w : Word} {k : Kind} {r : Redir} (h : redirOf w k = some r) : r.file = w := by
  cases k <;> cases h <;> rfl

theorem Redirs.files {rs : List Redir} (h : Redirs ts rs) : rs.map Redir.file ⊆ texts ts := by
  induction h with
  | nil => exact nil_subset _
  | @cons op file ts r rs hword hop _ ih =>
    intro w hw
    rcases mem_cons.1 hw with rfl | hw
    · exact mem_texts.2 ⟨file, by simp, hword, (redirOf_file hop).symm⟩
    · exact texts_mono (by intro t ht; simp [ht]) (ih hw)

theorem Args.words {a : List Word × List Redir} (h : Args ts a) :
    a.1 ++ a.2.map Redir.file ⊆ texts ts := by
  induction h with
  | nil => exact nil_subset _
  | @cons t ts us rs a hword hrs _ ih =>
    have hcons : texts (t :: (ts ++ us)) = t.text :: (texts ts ++ texts us) := by
      rw [← texts_append]
      simp [texts, hword]
    rw [hcons]
    intro w hw
    have hfiles := hrs.files
    simp only [mem_append, mem_cons, map_append] at hw ⊢
    rcases hw with (hw | hw) | hw | hw
    · exact Or.inl hw
    · exact Or.inr (Or.inr (ih (mem_append_left _ hw)))
    · exact Or.inr (Or.inl (hfiles hw))
    · exact Or.inr (Or.inr (ih (mem_append_right _ hw)))

theorem Derives.words {nt : Nonterminal} {c : Cmd} (h : Derives nt ts c) :
    c.words ⊆ texts ts ∧ ∀ argv ∈ c.argvs, argv.length < MAXARGS := by
  -- two trees that are parsed from parts of the tokens
  have hboth : ∀ {ts us vs : List Token} {c d : Cmd}, ts ⊆ vs → us ⊆ vs →
      (c.words ⊆ texts ts ∧ ∀ argv ∈ c.argvs, argv.length < MAXARGS) →
      (d.words ⊆ texts us ∧ ∀ argv ∈ d.argvs, argv.length < MAXARGS) →
      c.words ++ d.words ⊆ texts vs ∧ ∀ argv ∈ c.argvs ++ d.argvs, argv.length < MAXARGS := by
    intro ts us vs c d hts hus hc hd
    refine ⟨append_subset.2 ⟨fun w hw => texts_mono hts (hc.1 hw),
      fun w hw => texts_mono hus (hd.1 hw)⟩, fun argv hargv => ?_⟩
    exact (mem_append.1 hargv).elim (hc.2 argv) (hd.2 argv)
  induction h with
  | line _ _ ih =>
    rw [(backs_words _ _).1, (backs_words _ _).2]
    exact ⟨fun w hw => texts_mono (subset_append_left _ _) (ih.1 hw), ih.2⟩
  | @seq ts amps us semi c d _ _ _ _ ih ih' =>
    rw [← (backs_words amps.length c).1, ← (backs_words amps.length c).2] at ih
    exact hboth (subset_append_left _ _) (by intro t ht; simp [ht]) ih ih'
  | single _ ih => exact ih
  | pipe _ _ _ ih ih' =>
    exact hboth (subset_append_left _ _) (by intro t ht; simp [ht]) ih ih'
  | block _ _ _ hrs ih =>
    rw [(wrap_words _ _).1, (wrap_words _ _).2]
    refine ⟨append_subset.2 ⟨fun w hw => ?_, fun w hw => ?_⟩, ih.2⟩
    · exact texts_mono (by intro t ht; simp [ht]) (ih.1 hw)
    · exact texts_mono (by intro t ht; simp [ht]) (hrs.files hw)
  | exec hrs hargs hlen =>
    rw [(wrap_words _ _).1, (wrap_words _ _).2, texts_append]
    refine ⟨fun w hw => ?_, fun argv hargv => ?_⟩
    · have hwords := hargs.words
      simp only [Cmd.words, map_append, mem_append] at hw ⊢
      rcases hw with hw | hw | hw
      · exact Or.inr (hwords (mem_append_left _ hw))
      · exact Or.inl (hrs.files hw)
      · exact Or.inr (hwords (mem_append_right _ hw))
    · rw [mem_singleton.1 hargv]
      exact Nat.lt_of_le_of_lt hlen (by decide)

/-! ## Strings -/

theorem At.found (h : At line s ts) {t : Token} (ht : t ∈ ts) : Found line t.q t.kind t.eq := by
  induction h with
  | done => exact nomatch ht
  | more _ _ hfound _ ih =>
    rcases mem_cons.1 ht with rfl | ht
    · exact hfound
    · exact ih ht

section Word

variable {t : Token} (hf : Found line t.q t.kind t.eq) (hw : t.kind = .word)
include hf hw

theorem word_inside {i : Nat} (hle : t.q ≤ i) (hlt : i < t.eq) : inWord (char line i) = true := by
  rw [(hf.word hw).1] at hlt
  exact (scan_inside hle hlt).2

theorem word_end (hlt : t.eq < line.length) : inWord (char line t.eq) = false := by
  rw [(hf.word hw).1] at hlt ⊢
  exact scan_stops hlt

end Word

/-- The end of a word is inside no token: not in a word, and not after the first character of
another token. -/
theorem word_end_outside {t t' : Token} (hf : Found line t.q t.kind t.eq) (hw : t.kind = .word)
    (hf' : Found line t'.q t'.kind t'.eq) (hlt : t.eq < t'.eq) :
    t'.kind = .word ∧ t.eq < t'.q ∨ t'.kind ≠ .word ∧ t.eq ≤ t'.q := by
  have hend := word_end hf hw (Nat.lt_of_lt_of_le hlt hf'.le)
  by_cases hw' : t'.kind = .word
  · refine Or.inl ⟨hw', Nat.lt_of_not_le fun hle => ?_⟩
    rw [word_inside hf' hw' hle hlt] at hend
    exact nomatch hend
  · refine Or.inr ⟨hw', Nat.le_of_not_lt fun hgt => ?_⟩
    -- only `>>` has a second character, and the word would end in its first one
    obtain ⟨hlen, hfirst⟩ := hf'.inner hw' (by omega)
    have hstart := hf.lt
    have hin := word_inside hf hw (i := t'.q) (by omega) hgt
    rw [hfirst] at hin
    exact absurd hin (by decide)

theorem char_append_zero (line : List UInt8) (i : Nat) : char (line ++ [0]) i = char line i := by
  simp only [char, getD_eq_getElem?_getD]
  rcases Nat.lt_trichotomy i line.length with hlt | rfl | hgt
  · rw [getElem?_append_left hlt]
  · simp
  · rw [getElem?_eq_none (by simp; omega), getElem?_eq_none (by omega)]

theorem drop_of_char_ne {l : List UInt8} {q : Nat} (h : char l q ≠ 0) :
    l.drop q = char l q :: l.drop (q + 1) := by
  have hlt : q < l.length := by
    by_contra hge
    exact h (getD_eq_default _ _ (Nat.le_of_not_lt hge))
  rw [char_of_lt hlt]
  exact drop_eq_getElem_cons hlt

theorem cstring_eq {buf : List UInt8} {q e : Nat} (hle : q ≤ e) (hend : char buf e = 0)
    (hin : ∀ i, q ≤ i → i < e → char buf i = char line i ∧ char line i ≠ 0) :
    cstring buf q = (line.drop q).take (e - q) := by
  obtain ⟨k, rfl⟩ := Nat.exists_eq_add_of_le hle
  rw [Nat.add_sub_cancel_left]
  induction k generalizing q with
  | zero =>
    rw [take_zero, cstring]
    by_cases hlt : q < buf.length
    · rw [Nat.add_zero, char_of_lt hlt] at hend
      rw [drop_eq_getElem_cons hlt]
      show takeWhile _ (buf.get ⟨q, hlt⟩ :: _) = []
      rw [hend]
      rfl
    · rw [drop_eq_nil_of_le (Nat.le_of_not_lt hlt)]
      rfl
  | succ k ih =>
    obtain ⟨hchar, hne⟩ := hin q (Nat.le_refl q) (by omega)
    have hrest := ih (q := q + 1) (by omega) (by rwa [Nat.add_right_comm])
      fun i hi hlt => hin i (by omega) (by omega)
    rw [cstring, drop_of_char_ne (hchar ▸ hne), drop_of_char_ne hne, take_succ_cons,
      takeWhile_cons_of_pos (by simpa [hchar] using hne), hchar]
    exact congrArg _ hrest

/-- For every line that is accepted: each string of the tree is the word it was parsed from, no word
and no operator after its first character gets a NUL, and every `argv` ends with a null pointer. -/
theorem parsecmd_strings (line : List UInt8) (hz : 0 ∉ line) {c : Cmd} {buf : List UInt8}
    (h : parsecmd line = .ok (c, buf)) :
    (∀ w ∈ c.words, (∃ t ∈ tokens line, t.kind = .word ∧ t.text = w) ∧
      cstring buf w.q = (line.drop w.q).take (w.eq - w.q)) ∧
      (∀ t ∈ tokens line, ∀ i, (t.kind = .word ∧ t.q = i ∨ t.q < i) → i < t.eq →
        char buf i = char line i ∧ char line i ≠ 0) ∧
      ∀ argv ∈ c.argvs, ∃ n < MAXARGS, argv[n]? = none := by
  have hruns := (parse_line_runs hz).meets
  unfold parsecmd at h
  split at h
  · exact nomatch h
  next c' s hrun =>
    obtain ⟨rfl, rfl⟩ := Prod.mk.inj (Except.ok.inj h)
    rw [hrun] at hruns
    have hwords := Derives.words hruns
    have hword : ∀ w ∈ c'.words, ∃ t ∈ tokens line, t.kind = .word ∧ t.text = w := fun w hw =>
      mem_texts.1 (hwords.1 hw)
    have hfound : ∀ t ∈ tokens line, Found line t.q t.kind t.eq := fun t ht =>
      (at_tokens hz).found ht
    have hkeep : ∀ t ∈ tokens line, ∀ i, (t.kind = .word ∧ t.q = i ∨ t.q < i) → i < t.eq →
        char (nulterminate c' (line ++ [0])) i = char line i ∧ char line i ≠ 0 := by
      intro t' ht' i hi hlt
      have hf' := hfound t' ht'
      have hlen := hf'.le
      refine ⟨?_, fun hzero => ?_⟩
      · rw [nulterminate_char, char_append_zero, if_neg]
        intro hmem
        obtain ⟨w, hw, rfl⟩ := mem_map.1 hmem
        obtain ⟨t, ht, hk, rfl⟩ := hword w hw
        rcases word_end_outside (hfound t ht) hk hf' hlt with ⟨-, hout⟩ | ⟨hk', hout⟩
        · rcases hi with ⟨-, hi⟩ | hi
          · exact Nat.ne_of_gt hout hi
          · exact Nat.lt_asymm hout hi
        · rcases hi with ⟨hw', -⟩ | hi
          · exact hk' hw'
          · exact Nat.not_le_of_lt hi hout
      · have hend := (char_eq_zero hz (by omega)).1 hzero
        omega
    refine ⟨fun w hw => ⟨hword w hw, ?_⟩, hkeep, fun argv hargv => ?_⟩
    · obtain ⟨t, ht, hk, rfl⟩ := hword w hw
      refine cstring_eq (hfound t ht).lt.le ?_ fun i hle hlt => ?_
      · rw [nulterminate_char, if_pos (mem_map_of_mem hw)]
      · refine hkeep t ht i ?_ hlt
        rcases Nat.lt_or_eq_of_le hle with hgt | heq
        · exact Or.inr hgt
        · exact Or.inl ⟨hk, heq⟩
    · exact ⟨argv.length, hwords.2 argv hargv, getElem?_eq_none (Nat.le_refl _)⟩

/-- The two words of the line `a|b`. -/
theorem parsecmd_strings_pipe :
    parsecmd [0x61, 0x7c, 0x62] = .ok (.pipe (.exec [⟨0, 1⟩]) (.exec [⟨2, 3⟩]), [0x61, 0, 0x62, 0]) ∧
      cstring [0x61, 0, 0x62, 0] 0 = [0x61] := by
  have hrun : parsecmd [0x61, 0x7c, 0x62] =
      .ok (.pipe (.exec [⟨0, 1⟩]) (.exec [⟨2, 3⟩]), [0x61, 0, 0x62, 0]) := rfl
  exact ⟨hrun, ((parsecmd_strings _ (by decide) hrun).1 ⟨0, 1⟩ (by decide)).2⟩

/-- In the line `a|b` the NUL after the first word takes the place of the operator. -/
theorem parsecmd_cuts_operator : ∃ c buf t, parsecmd [0x61, 0x7c, 0x62] = .ok (c, buf) ∧
    t ∈ tokens [0x61, 0x7c, 0x62] ∧ t.q < t.eq ∧ char buf t.q = 0 ∧
      char [0x61, 0x7c, 0x62] t.q ≠ 0 :=
  ⟨_, [0x61, 0, 0x62, 0], ⟨.bar, 1, 2⟩, rfl, by decide, by decide, rfl, by decide⟩

end Xv6Schedulers.Shell

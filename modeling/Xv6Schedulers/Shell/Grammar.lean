import Xv6Schedulers.Shell.Tokens

/-!
# Grammar — the shell parses exactly its grammar

* `Derives nt ts c`: the tokens `ts` derive from the nonterminal `nt`, and `c` is their tree.
* `Runs x Q s`: the code returns in `Q` or panics; its rounds suffice.
* `parse_runs`: what the procedures return, derives (by induction on the rounds).
* `Derives.parses`: what derives, they return (by induction on the derivation), if what comes next
  cannot be taken for more of it.
* `parsecmd_grammar`: the two together.
-/

namespace Xv6Schedulers.Shell

open Lib Exec List

/-! ## Derivations -/

inductive Nonterminal
  | line | pipe | exec
  deriving DecidableEq

def Token.text (t : Token) : Word := ⟨t.q, t.eq⟩

/-- `redir*` -/
inductive Redirs : List Token → List Redir → Prop
  | nil : Redirs [] []
  | cons {op file : Token} {ts : List Token} {r : Redir} {rs : List Redir} :
      file.kind = .word → redirOf file.text op.kind = some r → Redirs ts rs →
      Redirs (op :: file :: ts) (r :: rs)

/-- `(word redir*)^k`, with the words and the redirections. -/
inductive Args : List Token → List Word × List Redir → Prop
  | nil : Args [] ([], [])
  | cons {t : Token} {ts us : List Token} {rs : List Redir} {a : List Word × List Redir} :
      t.kind = .word → Redirs ts rs → Args us a →
      Args (t :: (ts ++ us)) (t.text :: a.1, rs ++ a.2)

/-- The command with `n` times `BACK` around it. -/
def backs : Nat → Cmd → Cmd
  | 0, c => c
  | n + 1, c => backs n (.back c)

inductive Derives : Nonterminal → List Token → Cmd → Prop
  /-- `line ::= pipe '&'*` -/
  | line {ts amps : List Token} {c : Cmd} : Derives .pipe ts c → (∀ t ∈ amps, t.kind = .amp) →
      Derives .line (ts ++ amps) (backs amps.length c)
  /-- `line ::= pipe '&'* ';' line` -/
  | seq {ts amps us : List Token} {semi : Token} {c d : Cmd} :
      Derives .pipe ts c → (∀ t ∈ amps, t.kind = .amp) → semi.kind = .semi → Derives .line us d →
      Derives .line (ts ++ (amps ++ semi :: us)) (.list (backs amps.length c) d)
  /-- `pipe ::= exec` -/
  | single {ts : List Token} {c : Cmd} : Derives .exec ts c → Derives .pipe ts c
  /-- `pipe ::= exec '|' pipe` -/
  | pipe {ts us : List Token} {bar : Token} {c d : Cmd} :
      Derives .exec ts c → bar.kind = .bar → Derives .pipe us d →
      Derives .pipe (ts ++ bar :: us) (.pipe c d)
  /-- `exec ::= '(' line ')' redir*` -/
  | block {ts us : List Token} {lp rp : Token} {c : Cmd} {rs : List Redir} :
      lp.kind = .lparen → Derives .line ts c → rp.kind = .rparen → Redirs us rs →
      Derives .exec (lp :: (ts ++ rp :: us)) (wrap c rs)
  /-- `exec ::= redir* (word redir*)^k` -/
  | exec {ts us : List Token} {rs : List Redir} {a : List Word × List Redir} :
      Redirs ts rs → Args us a → a.1.length ≤ MAXARGS - 1 →
      Derives .exec (ts ++ us) (wrap (.exec a.1) (rs ++ a.2))

/-! ## Code that returns or panics -/

section Runs

variable {α β : Type} {x : Parse α} {f : α → Parse β} {Q : α → Nat → Prop} {R : β → Nat → Prop}
  {s : Nat}

/-- What a result has to meet. -/
def Meets (Q : α → Nat → Prop) : Except Stop (α × Nat) → Prop
  | .ok (a, t) => Q a t
  | .error (.panic _) => True
  | .error .rounds => False

structure Runs (x : Parse α) (Q : α → Nat → Prop) (s : Nat) : Prop where
  meets : Meets Q (x s)

theorem Runs.ret {a : α} (h : Q a s) : Runs (pure a) Q s := ⟨h⟩

theorem Runs.panics (m : Message) : Runs (throw (.panic m)) Q s := ⟨trivial⟩

theorem Runs.step {a : α} {t : Nat} (hx : x s = .ok (a, t)) (h : Runs (f a) R t) :
    Runs (x >>= f) R s := by
  refine ⟨?_⟩
  rw [bind_ok hx]
  exact h.meets

theorem Runs.seq (h : Runs x Q s) (hf : ∀ a t, Q a t → Runs (f a) R t) : Runs (x >>= f) R s := by
  have hmeets := h.meets
  cases hx : x s with
  | ok r =>
    rw [hx] at hmeets
    exact .step hx (hf r.1 r.2 hmeets)
  | error e =>
    refine ⟨?_⟩
    rw [bind_error hx]
    rw [hx] at hmeets
    cases e with
    | panic m => trivial
    | rounds => exact hmeets

theorem Runs.mono {Q' : α → Nat → Prop} (h : Runs x Q s) (hQ : ∀ a t, Q a t → Q' a t) :
    Runs x Q' s := by
  have hmeets := h.meets
  refine ⟨?_⟩
  cases hx : x s with
  | ok r =>
    rw [hx] at hmeets
    exact hQ r.1 r.2 hmeets
  | error e =>
    rw [hx] at hmeets
    cases e with
    | panic m => trivial
    | rounds => exact hmeets

end Runs

variable {line : List UInt8} {s n : Nat} {ts us rest : List Token}

/-- Tokens in `R` have been taken off `ts`. -/
def Took {α : Type} (line : List UInt8) (R : List Token → α → Prop) (ts : List Token) (a : α)
    (s : Nat) : Prop :=
  ∃ us rest, ts = us ++ rest ∧ R us a ∧ At line s rest

theorem heads_cons {toks : List UInt8} (h : heads toks ts = true) :
    ∃ t us, ts = t :: us ∧ toks.contains t.kind.symbol = true := by
  cases ts with
  | nil => exact nomatch h
  | cons t us => exact ⟨t, us, rfl, h⟩

theorem heads_kind {k : Kind} (hout : k ≠ .output) (happend : k ≠ .append)
    (h : heads [k.symbol] ts = true) : ∃ t us, ts = t :: us ∧ t.kind = k := by
  rcases heads_cons h with ⟨t, us, rfl, hc⟩
  have heq : t.kind.symbol = k.symbol := by simpa using hc
  refine ⟨t, us, rfl, ?_⟩
  revert heq hout happend
  cases t.kind <;> cases k <;> decide

theorem heads_of_kind {t : Token} {k : Kind} (ht : t.kind = k) (toks : List UInt8) :
    heads toks (t :: us) = toks.contains k.symbol := by
  rw [heads, ht]

theorem Runs.peek {α : Type} {x y : Parse α} {Q : α → Nat → Prop} (hz : 0 ∉ line)
    (h : At line s ts) {toks : List UInt8} (htoks : toks.all (· ∈ symbols) = true)
    (hyes : ∀ s, heads toks ts = true → At line s ts → Runs x Q s)
    (hno : ∀ s, heads toks ts = false → At line s ts → Runs y Q s) :
    Runs (Shell.peek line toks >>= fun b => if b then x else y) Q s := by
  obtain ⟨s₁, hpeek, h₁⟩ := h.peek hz toks (by simpa using htoks)
  refine .step hpeek ?_
  cases hhead : heads toks ts with
  | true => exact hyes s₁ hhead h₁
  | false => exact hno s₁ hhead h₁

theorem Runs.take {α : Type} {x y : Parse α} {Q : α → Nat → Prop} (hz : 0 ∉ line)
    (h : At line s ts) {k : Kind} (hk : k.symbol ∈ symbols) (hout : k ≠ .output)
    (happend : k ≠ .append)
    (hyes : ∀ t us s, ts = t :: us → t.kind = k → At line s us → Runs x Q s)
    (hno : ∀ s, At line s ts → Runs y Q s) :
    Runs (Shell.peek line [k.symbol] >>= fun b => if b then gettoken line >>= fun _ => x else y)
      Q s := by
  refine .peek hz h (by simpa using hk) (fun s₁ hhead h₁ => ?_) fun s₁ _ h₁ => hno s₁ h₁
  obtain ⟨t, us, rfl, ht⟩ := heads_kind hout happend hhead
  obtain ⟨s₂, hget, h₂⟩ := h₁.gettoken_cons
  exact .step hget (hyes t us s₂ rfl ht h₂)

theorem ends_peek {α : Type} {x y : Parse α} {Q : α → Nat → Prop} (hz : 0 ∉ line)
    (h : At line s ts) {toks : List UInt8} (htoks : toks.all (· ∈ symbols) = true) {b : Bool}
    (hhead : heads toks ts = b) (hrun : ∀ s, At line s ts → Ends False (if b then x else y) Q s) :
    Ends False (Shell.peek line toks >>= fun b => if b then x else y) Q s := by
  obtain ⟨s₁, hpeek, h₁⟩ := h.peek hz toks (by simpa using htoks)
  refine .step hpeek ?_
  rw [hhead]
  exact hrun s₁ h₁

theorem ends_take {α : Type} {x y : Parse α} {Q : α → Nat → Prop} (hz : 0 ∉ line) {t : Token}
    (h : At line s (t :: us)) {k : Kind} (hk : k.symbol ∈ symbols) (ht : t.kind = k)
    (hrun : ∀ s, At line s us → Ends False x Q s) :
    Ends False (Shell.peek line [k.symbol] >>= fun b => if b then gettoken line >>= fun _ => x
      else y) Q s := by
  have hhead : heads [k.symbol] (t :: us) = true := by
    rw [heads_of_kind ht]
    simp
  refine ends_peek hz h (by simpa using hk) hhead fun s₁ h₁ => ?_
  obtain ⟨s₂, hget, h₂⟩ := h₁.gettoken_cons
  exact .step hget (hrun s₂ h₂)

/-! ## What the procedures return, derives -/

section Soundness

variable (hz : 0 ∉ line)
include hz

theorem parseredirs_runs (h : At line s ts) (hn : ts.length < n) :
    Runs (parseredirs line n) (Took line Redirs ts) s := by
  induction n generalizing s ts with
  | zero => omega
  | succ n ih =>
    refine .peek hz h (by decide) (fun s₁ hhead h₁ => ?_) fun s₁ _ h₁ => ?_
    · obtain ⟨op, ts, rfl, hop⟩ := heads_cons hhead
      obtain ⟨s₂, hget, h₂⟩ := h₁.gettoken_cons
      refine .step hget ?_
      cases ts with
      | nil =>
        obtain ⟨w, s₃, hget, -⟩ := h₂.gettoken_nil hz
        exact .step hget (.panics _)
      | cons file ts =>
        obtain ⟨s₃, hget, h₃⟩ := h₂.gettoken_cons
        refine .step hget ?_
        by_cases hword : file.kind = .word
        · rw [if_pos (congrArg some hword)]
          obtain ⟨r, hr⟩ : ∃ r, redirOf file.text op.kind = some r := by
            revert hop
            cases op.kind <;> simp [Kind.symbol, redirOf]
          refine (ih h₃ (by simp only [length_cons] at hn; omega)).seq ?_
          rintro rs s₄ ⟨us, rest, rfl, hrs, h₄⟩
          refine .ret ⟨op :: file :: us, rest, rfl, ?_, h₄⟩
          have hone : ((some op.kind).bind (redirOf file.text)).toList = [r] := by
            rw [Option.bind_some, hr]
            rfl
          exact hone.symm ▸ .cons hword hr hrs
        · rw [if_neg fun heq => hword (Option.some.inj heq)]
          exact .panics _
    · exact .ret ⟨[], ts, rfl, .nil, h₁⟩

theorem parseargs_runs (h : At line s ts) (hn : ts.length < n) {argc : Nat} (hargc : argc < MAXARGS) :
    Runs (parseargs line n argc)
      (Took line (fun us a => Args us a ∧ argc + a.1.length < MAXARGS) ts) s := by
  induction n generalizing s ts argc with
  | zero => omega
  | succ n ih =>
    refine .peek hz h (by decide) (fun s₁ _ h₁ => ?_) fun s₁ _ h₁ => ?_
    · exact .ret ⟨[], ts, rfl, ⟨.nil, hargc⟩, h₁⟩
    · cases ts with
      | nil =>
        obtain ⟨w, s₂, hget, h₂⟩ := h₁.gettoken_nil hz
        exact .step hget (.ret ⟨[], [], rfl, ⟨.nil, hargc⟩, h₂⟩)
      | cons t ts =>
        obtain ⟨s₂, hget, h₂⟩ := h₁.gettoken_cons
        rw [length_cons] at hn
        refine .step hget ?_
        cases hk : t.kind with
        | word =>
          dsimp only
          by_cases hmany : argc + 1 ≥ MAXARGS
          · rw [if_pos hmany]
            exact .panics _
          · rw [if_neg hmany]
            refine (parseredirs_runs hz h₂ (by omega)).seq ?_
            rintro rs s₃ ⟨us, rest, rfl, hrs, h₃⟩
            rw [length_append] at hn
            refine (ih h₃ (by omega) (Nat.lt_of_not_le hmany)).seq ?_
            rintro a s₄ ⟨vs, rest, rfl, ⟨ha, hlen⟩, h₄⟩
            refine .ret ⟨t :: (us ++ vs), rest, ?_, ⟨.cons hk hrs ha, ?_⟩, h₄⟩
            · rw [cons_append, append_assoc]
            · rw [length_cons]
              omega
        | _ => exact .panics _

theorem parseback_runs (h : At line s ts) (hn : ts.length < n) (c : Cmd) :
    Runs (parseback line n c) (Took line (fun us d =>
      (∀ t ∈ us, t.kind = .amp) ∧ d = backs us.length c) ts) s := by
  induction n generalizing s ts c with
  | zero => omega
  | succ n ih =>
    refine .take (k := .amp) hz h (by decide) nofun nofun ?_ fun s₁ h₁ => ?_
    · rintro t ts s₁ rfl ht h₁
      refine (ih h₁ (Nat.lt_of_succ_lt_succ hn) (.back c)).mono ?_
      rintro d s₂ ⟨us, rest, rfl, ⟨hus, rfl⟩, h₂⟩
      exact ⟨t :: us, rest, rfl, ⟨forall_mem_cons.2 ⟨ht, hus⟩, rfl⟩, h₂⟩
    · exact .ret ⟨[], ts, rfl, ⟨(fun _ ht => nomatch ht), rfl⟩, h₁⟩

/-- The four procedures that call each other, with the rounds that each of them needs. -/
theorem parse_runs (n : Nat) : (∀ s ts, At line s ts → 4 * ts.length + 4 ≤ n →
      Runs (parseline line n) (Took line (Derives .line) ts) s) ∧
    (∀ s ts, At line s ts → 4 * ts.length + 3 ≤ n →
      Runs (parsepipe line n) (Took line (Derives .pipe) ts) s) ∧
    (∀ s ts, At line s ts → 4 * ts.length + 1 ≤ n →
      Runs (parseblock line n) (Took line (Derives .exec) ts) s) ∧
    ∀ s ts, At line s ts → 4 * ts.length + 2 ≤ n →
      Runs (parseexec line n) (Took line (Derives .exec) ts) s := by
  induction n with
  | zero =>
    refine ⟨?_, ?_, ?_, ?_⟩ <;>
      · intro s ts _ hn
        omega
  | succ n ih =>
    obtain ⟨ihline, ihpipe, ihblock, ihexec⟩ := ih
    refine ⟨fun s ts h hn => ?_, fun s ts h hn => ?_, fun s ts h hn => ?_, fun s ts h hn => ?_⟩
    · unfold parseline
      refine (ihpipe s ts h (by omega)).seq ?_
      rintro c s₁ ⟨us, rest, rfl, hc, h₁⟩
      rw [length_append] at hn
      refine (parseback_runs hz h₁ (by omega) c).seq ?_
      rintro _ s₂ ⟨amps, rest, rfl, ⟨hamps, rfl⟩, h₂⟩
      rw [length_append] at hn
      refine .take (k := .semi) hz h₂ (by decide) nofun nofun ?_ fun s₃ h₃ => ?_
      · rintro semi rest s₃ rfl hsemi h₃
        rw [length_cons] at hn
        refine (ihline s₃ rest h₃ (by omega)).seq ?_
        rintro d s₄ ⟨vs, rest, rfl, hd, h₄⟩
        exact .ret ⟨_, rest, by simp, .seq hc hamps hsemi hd, h₄⟩
      · exact .ret ⟨_, rest, by simp, .line hc hamps, h₃⟩
    · unfold parsepipe
      refine (ihexec s ts h (by omega)).seq ?_
      rintro c s₁ ⟨us, rest, rfl, hc, h₁⟩
      rw [length_append] at hn
      refine .take (k := .bar) hz h₁ (by decide) nofun nofun ?_ fun s₂ h₂ => ?_
      · rintro bar rest s₂ rfl hbar h₂
        rw [length_cons] at hn
        refine (ihpipe s₂ rest h₂ (by omega)).seq ?_
        rintro d s₃ ⟨vs, rest, rfl, hd, h₃⟩
        exact .ret ⟨_, rest, by simp, .pipe hc hbar hd, h₃⟩
      · exact .ret ⟨us, rest, rfl, .single hc, h₂⟩
    · unfold parseblock
      refine .take (k := .lparen) hz h (by decide) nofun nofun ?_ fun _ _ => .panics _
      rintro lp ts s₁ rfl hlp h₁
      rw [length_cons] at hn
      refine (ihline s₁ ts h₁ (by omega)).seq ?_
      rintro c s₂ ⟨us, rest, rfl, hc, h₂⟩
      rw [length_append] at hn
      refine .take (k := .rparen) hz h₂ (by decide) nofun nofun ?_ fun _ _ => .panics _
      rintro rp rest s₃ rfl hrp h₃
      rw [length_cons] at hn
      refine (parseredirs_runs hz h₃ (by omega)).seq ?_
      rintro rs s₄ ⟨vs, rest, rfl, hrs, h₄⟩
      exact .ret ⟨_, rest, by simp, .block hlp hc hrp hrs, h₄⟩
    · unfold parseexec
      refine .peek hz h (by decide) (fun s₁ _ h₁ => ihblock s₁ ts h₁ (by omega)) ?_
      intro s₁ _ h₁
      refine (parseredirs_runs hz h₁ (by omega)).seq ?_
      rintro rs s₂ ⟨us, rest, rfl, hrs, h₂⟩
      rw [length_append] at hn
      refine (parseargs_runs hz h₂ (by omega) (by decide : 0 < MAXARGS)).seq ?_
      rintro a s₃ ⟨vs, rest, rfl, ⟨ha, hlen⟩, h₃⟩
      exact .ret ⟨_, rest, by simp, .exec hrs ha (by omega), h₃⟩

end Soundness

/-! ## What derives, the procedures return -/

/-- What may come after a nonterminal. -/
def follow : Nonterminal → List Kind
  | .line => [.rparen]
  | .pipe => [.amp, .semi, .rparen]
  | .exec => [.bar, .amp, .semi, .rparen]

def Follows (nt : Nonterminal) (rest : List Token) : Prop := ∀ t ∈ rest.head?, t.kind ∈ follow nt

theorem Follows.cons {nt : Nonterminal} {t : Token} (h : t.kind ∈ follow nt) :
    Follows nt (t :: rest) := by
  rintro _ ⟨⟩
  exact h

theorem Follows.mono {nt nt' : Nonterminal} (h : Follows nt rest) (hsub : follow nt ⊆ follow nt') :
    Follows nt' rest := fun t ht => hsub (h t ht)

theorem Follows.heads {nt : Nonterminal} (h : Follows nt rest) (toks : List UInt8)
    (hnone : ∀ k ∈ follow nt, toks.contains k.symbol = false) : heads toks rest = false := by
  cases rest with
  | nil => rfl
  | cons t rest => exact hnone _ (h t rfl)

theorem Redirs.heads {rs : List Redir} (h : Redirs us rs) {toks : List UInt8}
    (hrest : heads toks rest = false) (hin : toks.contains 0x3c = false)
    (hout : toks.contains 0x3e = false) : heads toks (us ++ rest) = false := by
  cases h with
  | nil => exact hrest
  | @cons op file _ _ _ _ hop _ =>
    show toks.contains op.kind.symbol = false
    cases hk : op.kind with
    | input => exact hin
    | output => exact hout
    | append => exact hout
    | _ =>
      rw [hk] at hop
      exact nomatch hop

theorem Args.heads {a : List Word × List Redir} (h : Args us a) {toks : List UInt8}
    (hrest : heads toks rest = false) (hzero : toks.contains 0 = false) :
    heads toks (us ++ rest) = false := by
  cases h with
  | nil => exact hrest
  | @cons t _ _ _ _ ht _ _ =>
    show toks.contains t.kind.symbol = false
    rw [ht]
    exact hzero

section Completeness

variable (hz : 0 ∉ line)
include hz

theorem Redirs.parses {rs : List Redir} (h : Redirs us rs) (hat : At line s (us ++ rest))
    (hrest : Shell.heads [0x3c, 0x3e] rest = false) (hn : us.length < n) :
    Ends False (parseredirs line n) (fun r s' => r = rs ∧ At line s' rest) s := by
  induction h generalizing s n with
  | nil =>
    obtain ⟨n, rfl⟩ := Nat.exists_eq_succ_of_ne_zero (Nat.ne_zero_of_lt hn)
    exact ends_peek hz hat (by decide) hrest fun s₁ h₁ => .ret ⟨rfl, h₁⟩
  | @cons op file ts r rs hword hop _ ih =>
    obtain ⟨n, rfl⟩ := Nat.exists_eq_succ_of_ne_zero (Nat.ne_zero_of_lt hn)
    have hhead : Shell.heads [0x3c, 0x3e] (op :: file :: ts ++ rest) = true := by
      show contains [0x3c, 0x3e] op.kind.symbol = true
      revert hop
      cases op.kind <;> simp [Kind.symbol, redirOf]
    refine ends_peek hz hat (by decide) hhead fun s₁ h₁ => ?_
    obtain ⟨s₂, hget, h₂⟩ := h₁.gettoken_cons
    obtain ⟨s₃, hget', h₃⟩ := h₂.gettoken_cons
    refine .step hget (.step hget' ?_)
    rw [if_pos (congrArg some hword)]
    refine (ih h₃ (by simp only [length_cons] at hn; omega)).seq ?_
    rintro _ s₄ ⟨rfl, h₄⟩
    refine .ret ⟨?_, h₄⟩
    show ((some op.kind).bind (redirOf file.text)).toList ++ _ = _
    rw [Option.bind_some, hop]
    rfl

theorem Args.parses {a : List Word × List Redir} (h : Args us a) {argc : Nat}
    (hargc : argc + a.1.length < MAXARGS) (hat : At line s (us ++ rest)) (hrest : Follows .exec rest)
    (hn : us.length < n) :
    Ends False (parseargs line n argc) (fun b s' => b = a ∧ At line s' rest) s := by
  induction h generalizing s n argc with
  | nil =>
    obtain ⟨n, rfl⟩ := Nat.exists_eq_succ_of_ne_zero (Nat.ne_zero_of_lt hn)
    cases rest with
    | nil =>
      refine ends_peek hz hat (by decide) rfl fun s₁ h₁ => ?_
      obtain ⟨w, s₂, hget, h₂⟩ := h₁.gettoken_nil hz
      exact .step hget (.ret ⟨rfl, h₂⟩)
    | cons t rest =>
      have hhead : Shell.heads [0x7c, 0x29, 0x26, 0x3b] (t :: rest) = true := by
        have hall : ∀ k ∈ follow .exec, contains [0x7c, 0x29, 0x26, 0x3b] k.symbol = true := by
          decide
        exact hall _ (hrest t rfl)
      exact ends_peek hz hat (by decide) hhead fun s₁ h₁ => .ret ⟨rfl, h₁⟩
  | @cons t ts us rs a hword hrs hargs ih =>
    obtain ⟨n, rfl⟩ := Nat.exists_eq_succ_of_ne_zero (Nat.ne_zero_of_lt hn)
    simp only [length_cons, length_append] at hn hargc
    have hhead : Shell.heads [0x7c, 0x29, 0x26, 0x3b] (t :: (ts ++ us) ++ rest) = false := by
      show contains [0x7c, 0x29, 0x26, 0x3b] t.kind.symbol = false
      rw [hword]
      rfl
    refine ends_peek hz hat (by decide) hhead fun s₁ h₁ => ?_
    obtain ⟨s₂, hget, h₂⟩ := h₁.gettoken_cons
    refine .step hget ?_
    rw [hword]
    dsimp only
    rw [if_neg (by omega)]
    have h₂' : At line s₂ (ts ++ (us ++ rest)) := append_assoc ts us rest ▸ h₂
    have hnext := hargs.heads (hrest.heads [0x3c, 0x3e] (by decide)) (by decide)
    refine (hrs.parses hz h₂' hnext (by omega)).seq ?_
    rintro _ s₃ ⟨rfl, h₃⟩
    refine (ih (by omega) h₃ (by omega)).seq ?_
    rintro _ s₄ ⟨rfl, h₄⟩
    exact .ret ⟨rfl, h₄⟩

theorem parseback_parses {amps : List Token} (hamps : ∀ t ∈ amps, t.kind = .amp)
    (hat : At line s (amps ++ rest)) (hrest : heads [0x26] rest = false) (hn : amps.length < n)
    (c : Cmd) :
    Ends False (parseback line n c) (fun d s' => d = backs amps.length c ∧ At line s' rest) s := by
  induction amps generalizing s n c with
  | nil =>
    obtain ⟨n, rfl⟩ := Nat.exists_eq_succ_of_ne_zero (Nat.ne_zero_of_lt hn)
    exact ends_peek hz hat (by decide) hrest fun s₁ h₁ => .ret ⟨rfl, h₁⟩
  | cons t amps ih =>
    obtain ⟨n, rfl⟩ := Nat.exists_eq_succ_of_ne_zero (Nat.ne_zero_of_lt hn)
    refine ends_take (k := .amp) hz hat (by decide) (hamps t mem_cons_self) fun s₁ h₁ => ?_
    exact ih (fun t' ht' => hamps t' (mem_cons_of_mem t ht')) h₁
      (Nat.lt_of_succ_lt_succ hn) (.back c)

/-- The procedure for a nonterminal, and the rounds it needs for a number of tokens. -/
def procedure (line : List UInt8) : Nonterminal → Nat → Parse Cmd
  | .line => parseline line
  | .pipe => parsepipe line
  | .exec => parseexec line

def need (k : Nat) : Nonterminal → Nat
  | .line => 4 * k + 4
  | .pipe => 4 * k + 3
  | .exec => 4 * k + 2

theorem Derives.parses {nt : Nonterminal} {c : Cmd} (h : Derives nt ts c)
    (hat : At line s (ts ++ rest)) (hrest : Follows nt rest) (hn : need (ts ++ rest).length nt ≤ n) :
    Ends False (procedure line nt n) (fun d s' => d = c ∧ At line s' rest) s := by
  induction h generalizing s n rest with
  | @line ts amps c _ hamps ih =>
    simp only [need, length_append] at hn
    obtain ⟨n, rfl⟩ := Nat.exists_eq_succ_of_ne_zero (show n ≠ 0 by omega)
    rw [append_assoc] at hat
    have hfollow : Follows .pipe (amps ++ rest) := by
      cases amps with
      | nil => exact hrest.mono (by decide)
      | cons t amps => exact .cons (hamps t mem_cons_self ▸ by decide)
    show Ends False (parseline line (n + 1)) _ s
    unfold parseline
    refine (ih hat hfollow (by simp only [need, length_append]; omega)).seq ?_
    rintro _ s₁ ⟨rfl, h₁⟩
    refine (parseback_parses hz hamps h₁ (hrest.heads _ (by decide)) (by omega) _).seq ?_
    rintro _ s₂ ⟨rfl, h₂⟩
    exact ends_peek hz h₂ (by decide) (hrest.heads _ (by decide)) fun s₃ h₃ => .ret ⟨rfl, h₃⟩
  | @seq ts amps us semi c d _ hamps hsemi _ ih ih' =>
    simp only [need, length_append, length_cons] at hn
    obtain ⟨n, rfl⟩ := Nat.exists_eq_succ_of_ne_zero (show n ≠ 0 by omega)
    rw [append_assoc, append_assoc, cons_append] at hat
    have hfollow : Follows .pipe (amps ++ semi :: (us ++ rest)) := by
      cases amps with
      | nil => exact .cons (hsemi ▸ by decide)
      | cons t amps => exact .cons (hamps t mem_cons_self ▸ by decide)
    show Ends False (parseline line (n + 1)) _ s
    unfold parseline
    refine (ih hat hfollow (by simp only [need, length_append, length_cons]; omega)).seq ?_
    rintro _ s₁ ⟨rfl, h₁⟩
    refine (parseback_parses hz hamps h₁ (heads_of_kind hsemi _) (by omega) _).seq ?_
    rintro _ s₂ ⟨rfl, h₂⟩
    refine ends_take (k := .semi) hz h₂ (by decide) hsemi fun s₃ h₃ => ?_
    refine (ih' h₃ hrest (by simp only [need, length_append]; omega)).seq ?_
    rintro _ s₄ ⟨rfl, h₄⟩
    exact .ret ⟨rfl, h₄⟩
  | @single ts c _ ih =>
    simp only [need, length_append] at hn
    obtain ⟨n, rfl⟩ := Nat.exists_eq_succ_of_ne_zero (show n ≠ 0 by omega)
    show Ends False (parsepipe line (n + 1)) _ s
    unfold parsepipe
    refine (ih hat (hrest.mono (by decide))
      (by simp only [need, length_append]; omega)).seq ?_
    rintro _ s₁ ⟨rfl, h₁⟩
    exact ends_peek hz h₁ (by decide) (hrest.heads _ (by decide)) fun s₂ h₂ => .ret ⟨rfl, h₂⟩
  | @pipe ts us bar c d _ hbar _ ih ih' =>
    simp only [need, length_append, length_cons] at hn
    obtain ⟨n, rfl⟩ := Nat.exists_eq_succ_of_ne_zero (show n ≠ 0 by omega)
    rw [append_assoc, cons_append] at hat
    show Ends False (parsepipe line (n + 1)) _ s
    unfold parsepipe
    refine (ih hat (.cons (hbar ▸ by decide))
      (by simp only [need, length_append, length_cons]; omega)).seq ?_
    rintro _ s₁ ⟨rfl, h₁⟩
    refine ends_take (k := .bar) hz h₁ (by decide) hbar fun s₂ h₂ => ?_
    refine (ih' h₂ hrest (by simp only [need, length_append]; omega)).seq ?_
    rintro _ s₃ ⟨rfl, h₃⟩
    exact .ret ⟨rfl, h₃⟩
  | @block ts us lp rp c rs hlp _ hrp hrs ih =>
    simp only [need, length_append, length_cons] at hn
    obtain ⟨n, rfl⟩ := Nat.exists_eq_add_of_le' (show 2 ≤ n by omega)
    rw [cons_append, append_assoc, cons_append] at hat
    show Ends False (parseexec line (n + 1 + 1)) _ s
    unfold parseexec
    refine ends_peek hz hat (by decide) (heads_of_kind hlp _) fun s₁ h₁ => ?_
    show Ends False (parseblock line (n + 1)) _ s₁
    unfold parseblock
    refine ends_take (k := .lparen) hz h₁ (by decide) hlp fun s₂ h₂ => ?_
    refine (ih h₂ (.cons (hrp ▸ by decide))
      (by simp only [need, length_append, length_cons]; omega)).seq ?_
    rintro _ s₃ ⟨rfl, h₃⟩
    refine ends_take (k := .rparen) hz h₃ (by decide) hrp fun s₄ h₄ => ?_
    refine (hrs.parses hz h₄ (hrest.heads _ (by decide)) (by omega)).seq ?_
    rintro _ s₅ ⟨rfl, h₅⟩
    exact .ret ⟨rfl, h₅⟩
  | @exec ts us rs a hrs hargs hlen =>
    simp only [need, length_append] at hn
    obtain ⟨n, rfl⟩ := Nat.exists_eq_succ_of_ne_zero (show n ≠ 0 by omega)
    rw [append_assoc] at hat
    have hnot : heads [0x28] (ts ++ (us ++ rest)) = false :=
      hrs.heads (hargs.heads (hrest.heads _ (by decide)) (by decide)) (by decide) (by decide)
    show Ends False (parseexec line (n + 1)) _ s
    unfold parseexec
    refine ends_peek hz hat (by decide) hnot fun s₁ h₁ => ?_
    have hnext := hargs.heads (hrest.heads [0x3c, 0x3e] (by decide)) (by decide)
    refine (hrs.parses hz h₁ hnext (by omega)).seq ?_
    rintro _ s₂ ⟨rfl, h₂⟩
    have hmax : 0 + a.1.length < MAXARGS := by
      simp only [MAXARGS] at hlen ⊢
      omega
    refine (hargs.parses hz hmax h₂ hrest (by omega)).seq ?_
    rintro _ s₃ ⟨rfl, h₃⟩
    exact .ret ⟨rfl, h₃⟩

end Completeness

/-! ## Whole lines -/

theorem At.done_iff (h : At line s ts) : scan isSpace line s = line.length ↔ ts = [] := by
  cases h with
  | done heq => exact ⟨fun _ => rfl, fun _ => heq⟩
  | more hlt => exact ⟨fun heq => absurd heq (Nat.ne_of_lt hlt), fun h => nomatch h⟩

section Lines

variable (hz : 0 ∉ line)
include hz

theorem tokens_need : need (tokens line).length .line ≤ 4 * line.length + 4 := by
  have hlen := (at_tokens hz).length_le (Nat.zero_le _)
  simp only [need]
  omega

theorem parse_line_runs : Runs (parse line) (fun c _ => Derives .line (tokens line) c) 0 := by
  refine ((parse_runs hz _).1 0 _ (at_tokens hz) (tokens_need hz)).seq ?_
  rintro c s ⟨us, rest, heq, hc, hat⟩
  refine .step (show peek line [] s = .ok (_, scan isSpace line s) from rfl)
    (.step (read_apply id _) ?_)
  rw [id_eq]
  by_cases hend : scan isSpace line s = line.length
  · rw [if_neg (not_not_intro hend)]
    refine .ret ?_
    rw [heq, hat.done_iff.1 hend, append_nil]
    exact hc
  · rw [if_pos hend]
    exact .panics _

theorem parse_line_parses {c : Cmd} (h : Derives .line (tokens line) c) :
    ∃ s, parse line 0 = .ok (c, s) := by
  have hat := at_tokens hz
  rw [← append_nil (tokens line)] at hat
  have hfollow : Follows .line [] := fun _ ht => nomatch ht
  have hends : Ends False (parse line) (fun d _ => d = c) 0 := by
    have hline : Ends False (procedure line .line (4 * line.length + 4))
        (fun d s => d = c ∧ At line s []) 0 :=
      h.parses hz hat hfollow (by rw [append_nil]; exact tokens_need hz)
    refine hline.seq ?_
    rintro _ s ⟨rfl, h'⟩
    refine .step (show peek line [] s = .ok (_, scan isSpace line s) from rfl)
      (.step (read_apply id _) ?_)
    rw [id_eq, if_neg (not_not_intro (h'.done_iff.2 rfl))]
    exact .ret rfl
  obtain ⟨_, s, hrun, rfl⟩ := hends.returns
  exact ⟨s, hrun⟩

end Lines

/-- For every line, `parsecmd` returns or panics; it returns a tree exactly if the tokens of the line
derive from the grammar, and then the tree of the derivation, which is the only one. -/
theorem parsecmd_grammar (line : List UInt8) (hz : 0 ∉ line) : parsecmd line ≠ .error .rounds ∧
      (∀ c, (∃ buf, parsecmd line = .ok (c, buf)) ↔ Derives .line (tokens line) c) ∧
      ∀ c d, Derives .line (tokens line) c → Derives .line (tokens line) d → c = d := by
  have hruns := (parse_line_runs hz).meets
  refine ⟨fun hstop => ?_, fun c => ⟨?_, fun h => ?_⟩, fun c d hc hd => ?_⟩
  · unfold parsecmd at hstop
    split at hstop
    · next e heq =>
        rw [heq, Except.error.inj hstop] at hruns
        exact hruns
    · exact nomatch hstop
  · rintro ⟨buf, hok⟩
    unfold parsecmd at hok
    split at hok
    · exact nomatch hok
    · next c' s heq =>
        rw [heq] at hruns
        rw [← (Prod.mk.inj (Except.ok.inj hok)).1]
        exact hruns
  · obtain ⟨s, hrun⟩ := parse_line_parses hz h
    exact ⟨nulterminate c (line ++ [0]), by simp only [parsecmd, hrun]⟩
  · obtain ⟨s, hrun⟩ := parse_line_parses hz hc
    obtain ⟨s', hrun'⟩ := parse_line_parses hz hd
    exact (Prod.mk.inj (Except.ok.inj (hrun.symm.trans hrun'))).1

/-- The line `a>b|(c)`. -/
theorem parsecmd_grammar_pipe :
    ∃ c, Derives .line (tokens [0x61, 0x3e, 0x62, 0x7c, 0x28, 0x63, 0x29]) c ∧
      c = .pipe (.redir (.exec [⟨0, 1⟩]) ⟨⟨2, 3⟩, 0x601, 1⟩) (.exec [⟨5, 6⟩]) := by
  have hall := parsecmd_grammar [0x61, 0x3e, 0x62, 0x7c, 0x28, 0x63, 0x29] (by decide)
  exact ⟨_, (hall.2.1 _).1 ⟨[0x61, 0, 0x62, 0, 0x28, 0x63, 0, 0], rfl⟩, rfl⟩

end Xv6Schedulers.Shell

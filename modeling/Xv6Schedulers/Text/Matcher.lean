import Mathlib.Computability.Language

/-!
# Matcher — the patterns of `grep`

`match`, `matchhere` and `matchstar` of `user/grep.c`.  A string is the list of its bytes before the
NUL, so that reading the NUL is coming to the end of the list.

* `items` reads a pattern as its items and a final anchor, `meaning` is the language of the items.
* `Matches re text`: some part of the text, at the start and to the end where the pattern is anchored
  there, is in that language.
* `matchText_iff`: the matcher decides `Matches`.
-/

namespace Xv6Schedulers.Text

/-- `'^'`. -/
def caret : UInt8 := 0x5e

/-- `'$'`. -/
def dollar : UInt8 := 0x24

/-- `'*'`. -/
def star : UInt8 := 0x2a

/-- `'.'`. -/
def dot : UInt8 := 0x2e

/-! ## The matcher -/

/-- `matchstar(c, re, text)`, where `here` is `matchhere(re, ·)`. -/
def matchstar (c : UInt8) (here : List UInt8 → Bool) : List UInt8 → Bool
  | [] => here []
  | t :: text => here (t :: text) || (t == c || c == dot) && matchstar c here text

def matchhere : List UInt8 → List UInt8 → Bool
  | [], _ => true
  -- `re[1]` is the NUL: after this character nothing is left to match
  | [c], text =>
      if c = dollar then text.isEmpty
      else
        match text with
        | [] => false
        | t :: _ => c == dot || c == t
  | c :: d :: re, text =>
      if d = star then matchstar c (matchhere re) text
      else
        match text with
        | [] => false
        | t :: text => (c == dot || c == t) && matchhere (d :: re) text

/-- The loop of `match`. -/
def matchFrom (re : List UInt8) : List UInt8 → Bool
  | [] => matchhere re []
  | t :: text => matchhere re (t :: text) || matchFrom re text

/-- `match(re, text)`. -/
def matchText (re text : List UInt8) : Bool :=
  if re.head? = some caret then matchhere re.tail text else matchFrom re text

/-! ## The meaning of patterns -/

/-- A character of a pattern, or a character and the `*` after it. -/
inductive Item
  | one (c : UInt8)
  | many (c : UInt8)
  deriving DecidableEq, Repr

/-- The items of a pattern without its `^`, and whether a `$` that is no item ends it. -/
def items : List UInt8 → List Item × Bool
  | [] => ([], false)
  | [c] => if c = dollar then ([], true) else ([.one c], false)
  | c :: d :: re =>
      if d = star then (.many c :: (items re).1, (items re).2)
      else (.one c :: (items (d :: re)).1, (items (d :: re)).2)

/-- The strings of one character that `c` stands for. -/
def single (c : UInt8) : Language UInt8 := {w | ∃ t, w = [t] ∧ (c = dot ∨ c = t)}

def Item.language : Item → Language UInt8
  | .one c => single c
  | .many c => KStar.kstar (single c)

def meaning (is : List Item) : Language UInt8 := (is.map Item.language).prod

/-- A part of the text that starts at its start is in the language; with `toEnd` it is all of it. -/
def Starts (l : Language UInt8) (toEnd : Bool) (text : List UInt8) : Prop :=
  ∃ w post, text = w ++ post ∧ w ∈ l ∧ (toEnd = true → post = [])

def Matches (re text : List UInt8) : Prop :=
  let body := items (if re.head? = some caret then re.tail else re)
  ∃ pre w post, text = pre ++ (w ++ post) ∧ w ∈ meaning body.1 ∧
    (re.head? = some caret → pre = []) ∧ (body.2 = true → post = [])

/-! ## The matcher decides it -/

variable {c t : UInt8} {text w : List UInt8} {l k : Language UInt8} {toEnd : Bool}

theorem mem_kstar_single : w ∈ KStar.kstar (single c) ↔ ∀ t ∈ w, c = dot ∨ c = t := by
  constructor
  · rintro ⟨parts, rfl, hparts⟩ t ht
    obtain ⟨part, hpart, ht⟩ := List.mem_flatten.1 ht
    obtain ⟨u, rfl, hu⟩ := hparts part hpart
    rw [List.mem_singleton.1 ht]
    exact hu
  · intro h
    refine ⟨w.map ([·]), (List.flatMap_singleton' w).symm, ?_⟩
    intro part hpart
    obtain ⟨t, ht, rfl⟩ := List.mem_map.1 hpart
    exact ⟨t, rfl, h t ht⟩

theorem starts_one : Starts 1 toEnd text ↔ (toEnd = true → text = []) := by
  constructor
  · rintro ⟨w, post, rfl, hw, hend⟩ htrue
    rw [(Language.mem_one w).1 hw, hend htrue]
    rfl
  · intro h
    exact ⟨[], text, rfl, Language.nil_mem_one, h⟩

theorem starts_mul :
    Starts (k * l) toEnd text ↔ ∃ u rest, text = u ++ rest ∧ u ∈ k ∧ Starts l toEnd rest := by
  constructor
  · rintro ⟨w, post, rfl, hw, hend⟩
    obtain ⟨u, hu, v, hv, rfl⟩ := Language.mem_mul.1 hw
    exact ⟨u, v ++ post, List.append_assoc u v post, hu, v, post, rfl, hv, hend⟩
  · rintro ⟨u, rest, rfl, hu, v, post, rfl, hv, hend⟩
    exact ⟨u ++ v, post, (List.append_assoc u v post).symm, Language.mem_mul.2 ⟨u, hu, v, hv, rfl⟩,
      hend⟩

theorem starts_single_nil : ¬Starts (single c * l) toEnd [] := by
  rw [starts_mul]
  rintro ⟨u, rest, hnil, ⟨t, rfl, -⟩, -⟩
  exact nomatch hnil

theorem starts_single_cons :
    Starts (single c * l) toEnd (t :: text) ↔ (c = dot ∨ c = t) ∧ Starts l toEnd text := by
  rw [starts_mul]
  constructor
  · rintro ⟨u, rest, htext, ⟨t', rfl, hc⟩, hrest⟩
    obtain ⟨rfl, rfl⟩ := List.cons.inj htext
    exact ⟨hc, hrest⟩
  · rintro ⟨hc, hrest⟩
    exact ⟨[t], text, rfl, ⟨t, rfl, hc⟩, hrest⟩

/-- The loop stops at the first place from where the rest matches. -/
theorem matchstar_iff {here : List UInt8 → Bool} (hhere : ∀ text, here text = true ↔ Starts l toEnd text)
    (text : List UInt8) :
    matchstar c here text = true ↔ Starts (KStar.kstar (single c) * l) toEnd text := by
  simp only [starts_mul, mem_kstar_single, ← hhere]
  induction text with
  | nil => simp [matchstar]
  | cons t text ih =>
    simp only [matchstar, Bool.or_eq_true, Bool.and_eq_true, beq_iff_eq, ih]
    constructor
    · rintro (hnow | ⟨hc, u, rest, rfl, hu, hrest⟩)
      · exact ⟨[], t :: text, rfl, nofun, hnow⟩
      · refine ⟨t :: u, rest, rfl, ?_, hrest⟩
        exact List.forall_mem_cons.2 ⟨hc.symm.imp id Eq.symm, hu⟩
    · rintro ⟨u, rest, htext, hu, hrest⟩
      cases u with
      | nil =>
        left
        exact htext ▸ hrest
      | cons t' u =>
        obtain ⟨rfl, rfl⟩ := List.cons.inj htext
        obtain ⟨hc, hu⟩ := List.forall_mem_cons.1 hu
        exact .inr ⟨hc.symm.imp Eq.symm id, u, rest, rfl, hu, hrest⟩

theorem denotation_nil : meaning [] = 1 := rfl

theorem denotation_cons (i : Item) (is : List Item) : meaning (i :: is) = i.language * meaning is :=
  List.prod_cons

theorem matchhere_iff (re text : List UInt8) :
    matchhere re text = true ↔ Starts (meaning (items re).1) (items re).2 text := by
  -- the recursion of the pattern: nothing, a final `$`, another last character, a starred one, any other
  fun_induction items re generalizing text with
  | case1 => simp [matchhere, denotation_nil, starts_one]
  | case2 => simp [matchhere, denotation_nil, starts_one]
  | case3 c hc =>
    rw [denotation_cons, denotation_nil, Item.language]
    cases text with
    | nil => exact iff_of_false (by simp [matchhere, hc]) starts_single_nil
    | cons t text =>
      rw [starts_single_cons, starts_one]
      simp [matchhere, hc]
  | case4 c re ih =>
    have hstar : matchhere (c :: star :: re) text = matchstar c (matchhere re) text := by
      cases text <;> rfl
    rw [hstar, denotation_cons]
    exact matchstar_iff ih text
  | case5 c d re hd ih =>
    rw [denotation_cons, Item.language]
    cases text with
    | nil => simp [matchhere, hd, starts_single_nil]
    | cons t text => simp [matchhere, hd, starts_single_cons, ih]

theorem matchFrom_iff (re text : List UInt8) :
    matchFrom re text = true ↔ ∃ pre post, text = pre ++ post ∧ matchhere re post = true := by
  induction text with
  | nil => simp [matchFrom]
  | cons t text ih =>
    rw [matchFrom, Bool.or_eq_true, ih]
    constructor
    · rintro (hnow | ⟨pre, post, rfl, hpost⟩)
      · exact ⟨[], t :: text, rfl, hnow⟩
      · exact ⟨t :: pre, post, rfl, hpost⟩
    · rintro ⟨pre, post, htext, hpost⟩
      cases pre with
      | nil =>
        left
        exact htext ▸ hpost
      | cons t' pre => exact .inr ⟨pre, post, (List.cons.inj htext).2, hpost⟩

/-- `match` decides the pattern language. -/
theorem matchText_iff (re text : List UInt8) : matchText re text = true ↔ Matches re text := by
  rw [matchText, Matches]
  split
  next hcaret =>
    rw [matchhere_iff]
    constructor
    · rintro ⟨w, post, htext, hw, hend⟩
      exact ⟨[], w, post, htext, hw, fun _ => rfl, hend⟩
    · rintro ⟨pre, w, post, htext, hw, hstart, hend⟩
      rw [hstart hcaret] at htext
      exact ⟨w, post, htext, hw, hend⟩
  next hcaret =>
    simp only [matchFrom_iff, matchhere_iff]
    constructor
    · rintro ⟨pre, rest, htext, w, post, rfl, hw, hend⟩
      exact ⟨pre, w, post, htext, hw, fun h => absurd h hcaret, hend⟩
    · rintro ⟨pre, w, post, htext, hw, -, hend⟩
      exact ⟨pre, w ++ post, htext, w, post, rfl, hw, hend⟩

end Xv6Schedulers.Text

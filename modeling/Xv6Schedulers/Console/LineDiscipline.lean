import Xv6Schedulers.Console.Model

/-!
# LineDiscipline — the ring of the console is a line editor

* `Holds s pend line`: from `r` on the ring has the committed bytes `pend`, then the bytes `line` that
  can still be edited.  The operations of the code are operations on these two lists.
* `Refines` ties the state to the editor that has seen the same events; `refines_step` is its step
  lemma.
* Control-P prints the process list and is no input: the editor has to ignore it.
-/

namespace Xv6Schedulers.Console

open Lib Function List

/-! ## The contents of the ring -/

/-- The ring holds `pend`, committed, and `line`, not yet committed. -/
structure Holds (s : Cons) (pend line : List UInt8) : Prop where
  w : s.w = s.r + UInt32.ofNat pend.length
  e : s.e = s.w + UInt32.ofNat line.length
  room : pend.length + line.length ≤ INPUT_BUF_SIZE
  ring : Fifo.ring s.buf s.r (pend.length + line.length) = pend ++ line

theorem toNat_ofNat_le {k : Nat} (h : k ≤ INPUT_BUF_SIZE) : (UInt32.ofNat k).toNat = k := by
  rw [UInt32.toNat_ofNat']
  exact Nat.mod_eq_of_lt (Nat.lt_of_le_of_lt h (by decide))

namespace Holds

variable {s : Cons} {pend line : List UInt8} {c : UInt8}

theorem take (h : Holds s (c :: pend) line) :
    s.buf (Fifo.slot INPUT_BUF_SIZE s.r) = c ∧ Holds { s with r := s.r + 1 } pend line := by
  have hring := h.ring
  have hroom := h.room
  rw [length_cons, Nat.add_right_comm, Fifo.ring_succ, cons_append] at hring
  rw [length_cons] at hroom
  refine ⟨(cons.inj hring).1, ?_, h.e, by omega, (cons.inj hring).2⟩
  rw [h.w, length_cons, Fifo.ofNat_succ, ← add_assoc]

theorem back (h : Holds s pend (line ++ [c])) : Holds { s with e := s.e - 1 } pend line := by
  have hroom := h.room
  have hring := h.ring
  rw [length_append, length_singleton, ← Nat.add_assoc] at hroom hring
  refine ⟨h.w, ?_, by omega, ?_⟩
  · have he := h.e
    rw [length_append, length_singleton, Fifo.ofNat_succ] at he
    show s.e - 1 = s.w + _
    rw [he, add_comm 1, ← add_assoc, add_sub_cancel_right]
  · have hcut := congrArg dropLast hring
    rw [← append_assoc, dropLast_concat, Fifo.ring, range_succ, map_append,
      map_singleton, dropLast_concat] at hcut
    exact hcut

variable (h : Holds s pend line)
include h

theorem e_sub_w : s.e - s.w = UInt32.ofNat line.length := by
  rw [h.e, add_sub_cancel_left]

theorem w_sub_r : s.w - s.r = UInt32.ofNat pend.length := by
  rw [h.w, add_sub_cancel_left]

theorem e_eq : s.e = s.r + UInt32.ofNat (pend.length + line.length) := by
  rw [h.e, h.w, UInt32.ofNat_add, add_assoc]

theorem e_sub_r : s.e - s.r = UInt32.ofNat (pend.length + line.length) := by
  rw [h.e_eq, add_sub_cancel_left]

theorem line_length : (s.e - s.w).toNat = line.length := by
  have hroom := h.room
  rw [h.e_sub_w, toNat_ofNat_le (by omega)]

theorem pend_length : (s.w - s.r).toNat = pend.length := by
  have hroom := h.room
  rw [h.w_sub_r, toNat_ofNat_le (by omega)]

theorem length : (s.e - s.r).toNat = pend.length + line.length := by
  rw [h.e_sub_r, toNat_ofNat_le h.room]

theorem e_eq_w_iff : s.e = s.w ↔ line = [] := by
  rw [← length_eq_zero_iff, ← h.line_length]
  constructor
  · intro heq
    rw [heq, sub_self]
    rfl
  · intro hzero
    exact sub_eq_zero.1 (UInt32.toNat_inj.1 hzero)

theorem getElem {k : Nat} (hk : k < pend.length + line.length) :
    (pend ++ line)[k]? = some (s.buf (Fifo.slot INPUT_BUF_SIZE (s.r + UInt32.ofNat k))) := by
  rw [← h.ring, Fifo.ring, getElem?_map, getElem?_range hk]
  rfl

theorem ring_pend : Fifo.ring s.buf s.r (s.w - s.r).toNat = pend := by
  rw [h.pend_length]
  have htake := congrArg (List.take pend.length) h.ring
  rw [take_left, Fifo.ring, ← map_take, take_range,
    Nat.min_eq_left (Nat.le_add_right _ _)] at htake
  exact htake

theorem killLine (hplain : newline ∉ line) {k : Nat}
    (hk : k ≤ line.length) : s.killLine k (s.w + UInt32.ofNat k) = s.w := by
  induction k with
  | zero => exact add_zero s.w
  | succ k ih =>
    have hroom := h.room
    have hback : s.w + UInt32.ofNat (k + 1) - 1 = s.w + UInt32.ofNat k := by
      rw [Fifo.ofNat_succ, add_comm 1, ← add_assoc, add_sub_cancel_right]
    have hne : s.w + UInt32.ofNat (k + 1) ≠ s.w := by
      intro heq
      have hzero := congrArg UInt32.toNat (add_eq_left.1 heq)
      rw [toNat_ofNat_le (by omega)] at hzero
      cases hzero
    have hbyte : s.buf (Fifo.slot INPUT_BUF_SIZE (s.w + UInt32.ofNat k)) ≠ newline := by
      intro hbyte
      have hget := h.getElem (k := pend.length + k) (by omega)
      rw [getElem?_append_right (Nat.le_add_right _ _), Nat.add_sub_cancel_left,
        UInt32.ofNat_add, ← add_assoc, ← h.w, hbyte] at hget
      exact hplain (mem_of_getElem? hget)
    rw [Cons.killLine, hback, if_pos ⟨hne, hbyte⟩]
    exact ih (by omega)

theorem kill (hplain : newline ∉ line) :
    Holds { s with e := s.killLine (s.e - s.w).toNat s.e } pend [] := by
  have hzero : s.killLine (s.e - s.w).toNat s.e = s.w := by
    rw [h.line_length, h.e]
    exact h.killLine hplain (Nat.le_refl _)
  have hroom := h.room
  refine ⟨h.w, ?_, by rw [length_nil]; omega, ?_⟩
  · rw [hzero]
    exact (add_zero s.w).symm
  · rw [length_nil, Nat.add_zero, append_nil, ← h.pend_length]
    exact h.ring_pend

theorem store (hlt : pend.length + line.length < INPUT_BUF_SIZE)
    (c : UInt8) : Holds (s.store c) pend (line ++ [c]) := by
  have hlen : pend.length + (line ++ [c]).length = pend.length + line.length + 1 := by
    rw [length_append, length_singleton, Nat.add_assoc]
  refine ⟨h.w, ?_, ?_, ?_⟩
  · show s.e + 1 = s.w + _
    rw [h.e, length_append, length_singleton, Fifo.ofNat_succ, add_comm 1, add_assoc]
  · rw [hlen]
    exact hlt
  · rw [hlen, ← append_assoc, ← h.ring]
    show Fifo.ring (update s.buf (Fifo.slot INPUT_BUF_SIZE s.e) c) s.r _ = _
    rw [h.e_eq]
    exact Fifo.ring_put bufsize_dvd s.buf s.r hlt c

theorem commit : Holds { s with w := s.e } (pend ++ line) [] := by
  refine ⟨?_, (add_zero s.e).symm, ?_, ?_⟩
  · rw [length_append]
    exact h.e_eq
  · rw [length_append]
    exact h.room
  · rw [length_append, length_nil, Nat.add_zero, append_nil]
    exact h.ring

end Holds

/-! ## The keys -/

/-- NUL, and control-P. -/
def isIgnored (c : UInt8) : Bool := c == 0 || c == ctrlP

/-- The ring and the editor have the same bytes; readers have taken `taken`. -/
structure Refines (s : Cons) (taken : List UInt8) (ed : Editor) : Prop where
  count : ed.taken = taken.length
  plain : newline ∉ ed.line
  contents : ∃ pend, ed.out = taken ++ pend ∧ Holds s pend ed.line

section Keys

variable {s : Cons} {taken : List UInt8} {ed : Editor} {c : UInt8}

theorem Refines.size (h : Refines s taken ed) {pend : List UInt8} (hout : ed.out = taken ++ pend) :
    ed.size = pend.length + ed.line.length := by
  rw [Editor.size, hout, h.count, length_append, Nat.add_sub_cancel_left]

theorem Refines.room_iff (h : Refines s taken ed) :
    s.e - s.r < UInt32.ofNat INPUT_BUF_SIZE ↔ ed.size < INPUT_BUF_SIZE := by
  rcases h.contents with ⟨pend, hout, hs⟩
  rw [UInt32.lt_iff_toNat_lt, hs.length, h.size hout]
  rfl

theorem Refines.insert (h : Refines s taken ed) (hroom : ed.size < INPUT_BUF_SIZE) (c : UInt8) :
    Refines
      (if c = newline ∨ c = ctrlD ∨ (s.store c).e - (s.store c).r = UInt32.ofNat INPUT_BUF_SIZE then
        { s.store c with w := (s.store c).e } else s.store c) taken (ed.insert c) := by
  rcases h.contents with ⟨pend, hout, hs⟩
  have hsize := h.size hout
  rw [hsize] at hroom
  have hstore := hs.store hroom c
  have hfull : (s.store c).e - (s.store c).r = UInt32.ofNat INPUT_BUF_SIZE ↔
      Editor.size { ed with line := ed.line ++ [c] } = INPUT_BUF_SIZE := by
    have hlen : Editor.size { ed with line := ed.line ++ [c] } =
        pend.length + (ed.line ++ [c]).length := by
      rw [Editor.size, hout, h.count, length_append, Nat.add_sub_cancel_left]
    rw [← UInt32.toNat_inj, hstore.length, hlen]
    rfl
  have hinsert : ed.insert c =
      if c = newline ∨ c = ctrlD ∨ Editor.size { ed with line := ed.line ++ [c] } = INPUT_BUF_SIZE
      then { ed with out := ed.out ++ (ed.line ++ [c]), line := [] }
      else { ed with line := ed.line ++ [c] } := rfl
  rw [hinsert]
  by_cases hcommit : c = newline ∨ c = ctrlD ∨
      Editor.size { ed with line := ed.line ++ [c] } = INPUT_BUF_SIZE
  · rw [if_pos hcommit, if_pos (by rwa [hfull])]
    refine ⟨h.count, not_mem_nil, pend ++ (ed.line ++ [c]), ?_, hstore.commit⟩
    show ed.out ++ (ed.line ++ [c]) = _
    rw [hout, append_assoc]
  · rw [if_neg hcommit, if_neg (by rwa [hfull])]
    refine ⟨h.count, fun hmem => ?_, pend, hout, hstore⟩
    rcases mem_append.1 hmem with hmem | hmem
    · exact h.plain hmem
    · exact hcommit (Or.inl (mem_singleton.1 hmem).symm)

theorem Refines.key (h : Refines s taken ed) (c : UInt8) :
    Refines (s.consoleintr c) taken (ed.key isIgnored c) := by
  rcases h.contents with ⟨pend, hout, hs⟩
  unfold Cons.consoleintr Editor.key
  by_cases hP : c = ctrlP
  · rw [if_pos hP, if_pos (by simp [isIgnored, hP])]
    exact h
  by_cases hzero : c = 0
  · subst hzero
    exact h
  have hignored : ¬ isIgnored c = true := by simp [isIgnored, hP, hzero]
  rw [if_neg hP, if_neg hignored]
  by_cases hU : c = ctrlU
  · rw [if_pos hU, if_pos hU]
    exact ⟨h.count, not_mem_nil, pend, hout, hs.kill h.plain⟩
  rw [if_neg hU, if_neg hU]
  by_cases hback : c = ctrlH ∨ c = delete
  · rw [if_pos hback, if_pos hback]
    -- nothing is erased from an empty line
    rcases eq_nil_or_concat ed.line with hnil | ⟨line, last, hline⟩
    · rw [if_neg (not_not.2 (hs.e_eq_w_iff.2 hnil)), hnil]
      rw [hnil] at hs
      exact ⟨h.count, not_mem_nil, pend, hout, hs⟩
    · rw [concat_eq_append] at hline
      have hne : s.e ≠ s.w := fun heq => by
        rw [hs.e_eq_w_iff.1 heq] at hline
        exact absurd hline (by simp)
      rw [if_pos hne, hline, dropLast_concat]
      have hplain := h.plain
      rw [hline] at hs hplain
      exact ⟨h.count, fun hmem => hplain (mem_append_left _ hmem), pend, hout, hs.back⟩
  rw [if_neg hback, if_neg hback]
  by_cases hroom : ed.size < INPUT_BUF_SIZE
  · rw [if_pos ⟨hzero, h.room_iff.2 hroom⟩, if_pos hroom]
    exact h.insert hroom _
  · rw [if_neg (fun hand => hroom (h.room_iff.1 hand.2)), if_neg hroom]
    exact h

theorem Refines.take (h : Refines s taken ed) (hne : s.r ≠ s.w) :
    Refines { s with r := s.r + 1 } (taken ++ [s.buf (Fifo.slot INPUT_BUF_SIZE s.r)])
      { ed with taken := ed.taken + 1 } := by
  rcases h.contents with ⟨pend, hout, hs⟩
  cases pend with
  | nil =>
    refine absurd ?_ hne
    have hw := hs.w
    rw [hw]
    exact (add_zero s.r).symm
  | cons c pend =>
    rcases hs.take with ⟨hc, hs'⟩
    refine ⟨?_, h.plain, pend, ?_, hs'⟩
    · rw [length_append, length_singleton, ← h.count]
    · rw [hc, append_assoc, singleton_append]
      exact hout

end Keys

/-! ## Readers -/

theorem run_concat (ignored : UInt8 → Bool) (events : List Event) (ev : Event) :
    Editor.run ignored (events ++ [ev]) = (Editor.run ignored events).step ignored ev := by
  rw [Editor.run, foldl_append]
  rfl

section Runs

variable {n : Nat} {s t : State n} {p : Fin n}

/-- No reader wants more bytes than it asked for. -/
def Reading (s : State n) : Prop :=
  ∀ p target m, s.pc p = .wait target m ∨ s.pc p = .loop target m → m ≤ target

/-- The oldest byte of the ring. -/
def State.next (s : State n) : UInt8 := s.cons.buf (Fifo.slot INPUT_BUF_SIZE s.cons.r)

/-- What a round of `consoleread` can do. -/
inductive Round (s : State n) (p : Fin n) (target m : Int) : State n → Prop
  | done : Round s p target m (s.ret p .done (target - m))
  | killed : Round s p target m (s.ret p .killed (-1))
  | sleep : Round s p target m
      { s with lock := none, pc := update s.pc p (.wait target m) }
  | save (hlt : m < target) : Round s p target m (s.ret p .eof (target - m))
  | eof (hne : s.cons.r ≠ s.cons.w) (hc : s.next = ctrlD) (hge : target ≤ m) :
      Round s p target m ((s.take s.next).ret p .eof (target - m))
  | fault (hne : s.cons.r ≠ s.cons.w) (hc : s.next ≠ ctrlD) :
      Round s p target m ((s.take s.next).ret p .fault (target - m))
  | line (hne : s.cons.r ≠ s.cons.w) (hc : s.next ≠ ctrlD) :
      Round s p target m ((s.take s.next).ret p .line (target - (m - 1)))
  | more (hne : s.cons.r ≠ s.cons.w) (hc : s.next ≠ ctrlD) : Round s p target m
        { s.take s.next with pc := update s.pc p (.loop target (m - 1)) }

theorem round_cases (s : State n) (p : Fin n) (target m : Int) (killed fault : Bool) :
    Round s p target m (s.round p target m killed fault) := by
  unfold State.round
  split
  · exact .done
  · split
    · split
      · exact .killed
      · exact .sleep
    · rename_i hne
      simp only
      split
      · rename_i hc
        split
        · exact .save (by assumption)
        · exact .eof hne hc (by omega)
      · rename_i hc
        split
        · exact .fault hne hc
        · split
          · exact .line hne hc
          · exact .more hne hc

theorem Refines.taking (h : Refines s.cons s.taken (Editor.run isIgnored s.events))
    (hne : s.cons.r ≠ s.cons.w) :
    Refines (s.take s.next).cons (s.take s.next).taken
      (Editor.run isIgnored (s.take s.next).events) := by
  show Refines _ _ (Editor.run isIgnored (s.events ++ [.take]))
  rw [run_concat]
  exact h.take hne

theorem Refines.round {target m : Int}
    (h : Refines s.cons s.taken (Editor.run isIgnored s.events)) (hr : Round s p target m t) :
    Refines t.cons t.taken (Editor.run isIgnored t.events) := by
  cases hr with
  | done | killed | sleep | save => exact h
  | eof hne | fault hne | line hne | more hne => exact h.taking hne

/-- Every step keeps the ring and the editor together. -/
theorem refines_step {a : Act n} (h : Refines s.cons s.taken (Editor.run isIgnored s.events))
    (hstep : s.step a = some t) : Refines t.cons t.taken (Editor.run isIgnored t.events) := by
  cases a with
  | intr c =>
    simp only [State.step] at hstep
    split at hstep <;> cases hstep
    rw [run_concat]
    exact h.key c
  | read p m =>
    simp only [State.step] at hstep
    split at hstep <;> cases hstep
    exact h
  | run p killed fault =>
    simp only [State.step] at hstep
    split at hstep
    · cases hstep
    · split at hstep <;> cases hstep
      exact h
    · cases hstep
      exact h.round (round_cases s p _ _ killed fault)

theorem Round.pc {target m : Int} (h : Round s p target m t) : ∃ v, t.pc = update s.pc p v ∧
      (v = .user ∨ v = .wait target m ∨ v = .loop target (m - 1)) := by
  cases h with
  | done | killed | save | eof | fault | line => exact ⟨.user, rfl, Or.inl rfl⟩
  | sleep => exact ⟨.wait target m, rfl, Or.inr (Or.inl rfl)⟩
  | more => exact ⟨.loop target (m - 1), rfl, Or.inr (Or.inr rfl)⟩

theorem Round.events {target m : Int} (h : Round s p target m t) :
    t.events = s.events ∨ ∃ ev, t.events = s.events ++ [ev] := by
  cases h with
  | done | killed | sleep | save => exact Or.inl rfl
  | eof | fault | line | more => exact Or.inr ⟨.take, rfl⟩

theorem Round.eof_iff {target m : Int} (h : Round s p target m t) (hle : m ≤ target) :
    t.taken = s.taken ++ [ctrlD] ↔ t.returns = s.returns ++ [(.eof, 0)] := by
  cases h with
  | done | killed => simp [State.ret]
  | sleep => simp
  | save hlt =>
    have hpos : target - m ≠ 0 := by omega
    simp [State.ret, hpos]
  | eof hne hc hge =>
    have hzero : target - m = 0 := by omega
    simp [State.ret, State.take, hc, hzero]
  | fault hne hc | line hne hc => simp [State.ret, State.take, hc]
  | more hne hc => simp [State.take, hc]

theorem Reading.update (h : Reading s) {v : Pc} (hpc : t.pc = update s.pc p v)
    (hv : ∀ target m, v = .wait target m ∨ v = .loop target m → m ≤ target) : Reading t := by
  intro q target m hq
  rw [hpc] at hq
  by_cases hqp : q = p
  · subst hqp
    rw [update_self] at hq
    exact hv target m hq
  · rw [update_of_ne hqp] at hq
    exact h q target m hq

theorem reading_step {a : Act n} (h : Reading s) (hstep : s.step a = some t) : Reading t := by
  cases a with
  | intr c =>
    simp only [State.step] at hstep
    split at hstep <;> cases hstep
    exact h
  | read p m =>
    simp only [State.step] at hstep
    split at hstep <;> cases hstep
    exact h.update rfl (by simp)
  | run p killed fault =>
    simp only [State.step] at hstep
    split at hstep
    · cases hstep
    · rename_i target m hpc
      split at hstep <;> cases hstep
      have hle := h p target m (Or.inl hpc)
      refine h.update rfl fun target' m' hv => ?_
      simp only [Pc.loop.injEq, reduceCtorEq, false_or] at hv
      omega
    · rename_i target m hpc
      cases hstep
      have hle := h p target m (Or.inr hpc)
      rcases (round_cases s p target m killed fault).pc with ⟨v, hnew, hv⟩
      refine h.update hnew fun target' m' hv' => ?_
      rcases hv with rfl | rfl | rfl
      · simp at hv'
      · simp only [Pc.wait.injEq, reduceCtorEq, or_false] at hv'
        omega
      · simp only [Pc.loop.injEq, reduceCtorEq, false_or] at hv'
        omega

theorem eof_step {a : Act n} (h : Reading s) (hstep : s.step a = some t) :
    t.taken = s.taken ++ [ctrlD] ↔ t.returns = s.returns ++ [(.eof, 0)] := by
  cases a with
  | intr c =>
    simp only [State.step] at hstep
    split at hstep <;> cases hstep
    simp
  | read p m =>
    simp only [State.step] at hstep
    split at hstep <;> cases hstep
    simp
  | run p killed fault =>
    simp only [State.step] at hstep
    split at hstep
    · cases hstep
    · split at hstep <;> cases hstep
      simp
    · rename_i target m hpc
      cases hstep
      exact (round_cases s p target m killed fault).eof_iff (h p target m (Or.inr hpc))

/-! ## Every run -/

theorem reachable_refines {buf : Fin INPUT_BUF_SIZE → UInt8}
    (h : (machine n).Reaches (.boot n buf) s) :
    Refines s.cons s.taken (Editor.run isIgnored s.events) ∧ Reading s := by
  refine h.invariant (I := fun s => Refines s.cons s.taken (Editor.run isIgnored s.events) ∧
    Reading s) ⟨?_, ?_⟩ ?_
  · exact ⟨rfl, not_mem_nil, [], rfl, rfl, rfl, Nat.zero_le _, rfl⟩
  · exact fun p target m hpc => by simp [State.boot] at hpc
  · exact fun t a u ht hs => ⟨refines_step ht.1 hs, reading_step ht.2 hs⟩

theorem Refines.committed (h : Refines s.cons s.taken (Editor.run isIgnored s.events)) :
    s.committed = (Editor.run isIgnored s.events).out := by
  rcases h.contents with ⟨pend, hout, hs⟩
  rw [State.committed, hs.ring_pend, hout]

theorem out_prefix (ed : Editor) (ev : Event) : ed.out <+: (ed.step isIgnored ev).out := by
  have hinsert : ∀ c, ed.out <+: (ed.insert c).out := by
    intro c
    unfold Editor.insert
    simp only
    split
    · exact prefix_append _ _
    · exact prefix_rfl
  cases ev with
  | take => exact prefix_rfl
  | key c =>
    simp only [Editor.step, Editor.key]
    split
    · exact prefix_rfl
    · split
      · exact prefix_rfl
      · split
        · exact prefix_rfl
        · split
          · exact hinsert _
          · exact prefix_rfl

theorem events_step {a : Act n} (hstep : s.step a = some t) :
    t.events = s.events ∨ ∃ ev, t.events = s.events ++ [ev] := by
  cases a with
  | intr c =>
    simp only [State.step] at hstep
    split at hstep <;> cases hstep
    exact Or.inr ⟨_, rfl⟩
  | read p m =>
    simp only [State.step] at hstep
    split at hstep <;> cases hstep
    exact Or.inl rfl
  | run p killed fault =>
    simp only [State.step] at hstep
    split at hstep
    · cases hstep
    · split at hstep <;> cases hstep
      exact Or.inl rfl
    · cases hstep
      exact (round_cases s p _ _ killed fault).events

/-- In every run with any number of readers: the indices are in order and at most the size of the
buffer apart; the bytes taken, followed by those committed in the ring, are the output of the editor
for the same keys, where control-P is ignored like NUL; no step erases a committed byte; and a step
takes a control-D if and only if it ends a read that returns 0 for it. -/
theorem console_line_discipline {buf : Fin INPUT_BUF_SIZE → UInt8}
    (h : (machine n).Reaches (.boot n buf) s) :
    (s.cons.w - s.cons.r ≤ s.cons.e - s.cons.r ∧
      s.cons.e - s.cons.r ≤ UInt32.ofNat INPUT_BUF_SIZE) ∧
    s.committed = (Editor.run isIgnored s.events).out ∧
    ∀ a t, (machine n).step s a = some t → s.committed <+: t.committed ∧
      (t.taken = s.taken ++ [ctrlD] ↔ t.returns = s.returns ++ [(.eof, 0)]) := by
  rcases reachable_refines h with ⟨href, hread⟩
  refine ⟨?_, href.committed, fun a t hstep => ⟨?_, eof_step hread hstep⟩⟩
  · rcases href.contents with ⟨pend, -, hs⟩
    rw [UInt32.le_iff_toNat_le, UInt32.le_iff_toNat_le, hs.pend_length, hs.length]
    exact ⟨Nat.le_add_right _ _, hs.room⟩
  · rw [href.committed, (refines_step href hstep).committed]
    rcases events_step hstep with heq | ⟨ev, heq⟩
    · rw [heq]
    · rw [heq, run_concat]
      exact out_prefix _ ev

end Runs

/-- A line with a correction is typed, then a reader takes it. -/
def typed : List (Act 1) :=
  [.intr 97, .intr 98, .intr delete, .intr 99, .intr carriageReturn, .read 0 10, .run 0 false false,
    .run 0 false false, .run 0 false false]

theorem console_line_discipline_typed :
    ∃ s : State 1, (machine 1).Reaches (.boot 1 fun _ => 0) s ∧ s.taken = [97, 99] ∧
      s.committed = [97, 99, newline] ∧
      s.committed = (Editor.run isIgnored s.events).out := by
  have hrun : ((machine 1).exec (.boot 1 fun _ => 0) typed).any
      (fun s => decide (s.taken = [97, 99] ∧ s.committed = [97, 99, newline])) = true := by
    decide +kernel
  rcases (Option.any_eq_true _ _).1 hrun with ⟨s, hs, htest⟩
  rcases of_decide_eq_true htest with ⟨htaken, hcommitted⟩
  have hreach := Machine.reaches_of_exec hs
  exact ⟨s, hreach, htaken, hcommitted, (console_line_discipline hreach).2.1⟩

/-- A control-P does not come out, though it is not among the keys that an editor with backspace,
delete, control-U, NUL and carriage return treats apart. -/
theorem ctrlP_is_not_input : ∃ s : State 0, (machine 0).Reaches (.boot 0 fun _ => 0) s ∧
      s.committed ≠ (Editor.run (fun c => c == 0) s.events).out := by
  have hrun : ((machine 0).exec (.boot 0 fun _ => 0) [.intr ctrlP, .intr newline]).any
      (fun s => decide (s.committed ≠ (Editor.run (fun c => c == 0) s.events).out)) = true := by
    decide +kernel
  exact Machine.reaches_of_any hrun

end Xv6Schedulers.Console

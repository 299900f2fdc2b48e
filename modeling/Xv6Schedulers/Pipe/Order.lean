import Mathlib.Algebra.Order.BigOperators.Group.Finset
import Mathlib.Tactic.Abel
import Xv6Schedulers.Pipe.Model

/-!
# Order — a pipe is a bounded FIFO

* `Locked`: the process that `pi->lock` belongs to is the one inside a critical section.
* `Ring`: the ring holds what was put in and not yet taken out, at most `PIPESIZE` bytes.
* `Ends`: an end is closed once, by the process that gives up its last descriptor, and the page is
  freed by the second of the two.
-/

namespace Xv6Schedulers.Pipe

open Lib Function

variable {n : Nat} {s t : State n} {p q : Fin n}

/-! ## The lock -/

/-- Exactly the owner of the lock is in a critical section. -/
def Locked (s : State n) : Prop := ∀ p, (s.pc p).holds = true ↔ s.lock = some p

theorem Locked.owner (h : Locked s) (hp : (s.pc p).holds = true) : s.lock = some p := (h p).1 hp

theorem Locked.keep (h : Locked s) {v : Pc} (hpc : t.pc = update s.pc p v)
    (hlock : t.lock = s.lock) (hv : (s.pc p).holds = v.holds) : Locked t := by
  intro q
  rw [hpc, hlock]
  by_cases hq : q = p
  · subst hq
    simpa [hv] using h q
  · simpa [hq] using h q

theorem Locked.enter {v : Pc} (h : Locked s) (hlock : s.lock = none) (hv : v.holds = true)
    (hpc : t.pc = update s.pc p v) (ht : t.lock = some p) : Locked t := by
  intro q
  rw [hpc, ht]
  by_cases hq : q = p
  · subst hq
    simp [hv]
  · have hout : ¬ (s.pc q).holds = true := fun hin => by
      have howner := h.owner hin
      rw [hlock] at howner
      cases howner
    simpa [hq, Ne.symm hq] using hout

theorem Locked.leave {v : Pc} (h : Locked s) (hp : (s.pc p).holds = true) (hv : v.holds = false) :
    Locked (s.leave p v) := by
  intro q
  have howner := h.owner hp
  by_cases hq : q = p
  · subst hq
    simp [State.leave, State.setPc, hv]
  · have hout : ¬ (s.pc q).holds = true := fun hin => by
      have hin' := h.owner hin
      rw [howner] at hin'
      exact hq (Option.some.inj hin').symm
    simpa [State.leave, State.setPc, hq] using hout

theorem locked_step (h : Locked s) (hstep : Step s p t) : Locked t := by
  cases hstep with
  | call k hpc _ => exact h.keep rfl rfl (by rw [hpc]; rfl)
  | close e _ _ => exact h
  | closeLast e hpc _ _ => exact h.keep rfl rfl (by rw [hpc]; rfl)
  | dup q e _ => exact h
  | kill q _ => exact h
  | killAsleep q k hq => exact h.keep rfl rfl (by rw [hq]; rfl)
  | enter k hpc hlock =>
    cases k with
    | write m i => exact h.enter hlock rfl rfl rfl
    | read m => exact h.enter hlock rfl rfl rfl
  | shut e hpc hlock => exact h.enter hlock rfl rfl rfl
  | stop m i hpc _ => exact h.leave (by rw [hpc]; rfl) rfl
  | full m i hpc _ _ => exact h.keep rfl rfl (by rw [hpc]; rfl)
  | put m i b hpc _ _ => exact h.keep rfl rfl (by rw [hpc]; rfl)
  | wrote m i hpc => exact h.keep rfl rfl (by rw [hpc]; rfl)
  | interrupted m hpc => exact h.leave (by rw [hpc]; rfl) rfl
  | wait m hpc _ _ => exact h.keep rfl rfl (by rw [hpc]; rfl)
  | ready m hpc => exact h.keep rfl rfl (by rw [hpc]; rfl)
  | take m i v hpc _ hv =>
    refine h.keep rfl rfl ?_
    rw [hpc]
    rcases hv with rfl | rfl <;> rfl
  | done m i hpc => exact h.keep rfl rfl (by rw [hpc]; rfl)
  | pass ch q a hpc _ => exact h.keep rfl rfl (by rw [hpc]; rfl)
  | wake ch q a k hpc hne hq =>
    have hwoken : Locked (s.setPc q (.acquire k)) := h.keep rfl rfl (by rw [hq]; rfl)
    refine hwoken.keep rfl rfl ?_
    rw [State.setPc_pc, update_of_ne hne.symm, hpc]
    rfl
  | wokeSleep ch j k hpc _ => exact h.keep rfl rfl (by rw [hpc]; rfl)
  | wokeLeave ch j a hpc _ _ => exact h.leave (by rw [hpc]; rfl) rfl
  | wokeFree ch j hpc _ _ _ => exact Locked.leave h (by rw [hpc]; rfl) rfl
  | sleep k hpc => exact h.leave (by rw [hpc]; rfl) rfl
  | fall k hpc => exact h.keep rfl rfl (by rw [hpc]; rfl)

/-! ## The ring -/

/-- The ring holds what was put in and not yet taken out. -/
structure Ring (s : State n) : Prop where
  bound : (s.nwrite - s.nread).toNat ≤ PIPESIZE
  order : s.put = s.taken ++ s.content

theorem nwrite_eq (s : State n) : s.nwrite = s.nread + UInt32.ofNat (s.nwrite - s.nread).toNat := by
  rw [UInt32.ofNat_toNat]
  abel

theorem Ring.of_eq (h : Ring s) (hdata : t.data = s.data) (hread : t.nread = s.nread)
    (hwrite : t.nwrite = s.nwrite) (hput : t.put = s.put) (htaken : t.taken = s.taken) :
    Ring t := by
  refine ⟨?_, ?_⟩
  · rw [hread, hwrite]
    exact h.bound
  · rw [State.content, hput, htaken, hdata, hread, hwrite]
    exact h.order

theorem Ring.putByte (h : Ring s) (hfull : ¬ s.Full) (b : UInt8) : Ring (s.putByte b) := by
  have hlen : (s.nwrite - s.nread).toNat < PIPESIZE := by
    refine lt_of_le_of_ne h.bound fun heq => hfull ?_
    rw [State.Full, ← heq]
    exact nwrite_eq s
  have hsucc : (s.nwrite + 1 - s.nread).toNat = (s.nwrite - s.nread).toNat + 1 := by
    have hsub : s.nwrite + 1 - s.nread = s.nwrite - s.nread + 1 := by abel
    rw [hsub, UInt32.toNat_add]
    refine Nat.mod_eq_of_lt ?_
    calc (s.nwrite - s.nread).toNat + 1
        ≤ PIPESIZE := hlen
      _ < 2 ^ 32 := by decide
  have hring := Fifo.ring_put pipesize_dvd s.data s.nread hlen b
  rw [← nwrite_eq s] at hring
  refine ⟨?_, ?_⟩
  · exact le_of_eq_of_le hsucc hlen
  · rw [State.content, State.putByte, hsucc, hring, h.order, List.append_assoc]
    rfl

theorem Ring.takeByte (h : Ring s) (hne : s.nread ≠ s.nwrite) : Ring s.takeByte := by
  have hpos : (s.nwrite - s.nread).toNat ≠ 0 := by
    intro hzero
    apply hne
    have heq := nwrite_eq s
    rw [hzero] at heq
    rw [heq]
    exact (add_zero s.nread).symm
  have hsucc : (s.nwrite - s.nread).toNat = (s.nwrite - (s.nread + 1)).toNat + 1 := by
    have hsub : s.nwrite - s.nread = s.nwrite - (s.nread + 1) + 1 := by abel
    rw [hsub, UInt32.toNat_add] at hpos ⊢
    have hlt := (s.nwrite - (s.nread + 1)).toNat_lt
    simp only [UInt32.toNat_one] at hpos ⊢
    omega
  refine ⟨?_, ?_⟩
  · exact Nat.le_of_succ_le (le_of_eq_of_le hsucc.symm h.bound)
  · have horder := h.order
    rw [State.content, hsucc, Fifo.ring_succ] at horder
    rw [State.content, State.takeByte, horder, List.append_assoc]
    rfl

theorem ring_step (h : Ring s) (hstep : Step s p t) : Ring t := by
  cases hstep with
  | put m i b _ _ hfull => exact (h.putByte hfull b).of_eq rfl rfl rfl rfl rfl
  | take m i v _ hne _ => exact (h.takeByte hne).of_eq rfl rfl rfl rfl rfl
  | enter k _ _ => cases k <;> exact h.of_eq rfl rfl rfl rfl rfl
  | _ => exact h.of_eq rfl rfl rfl rfl rfl

/-! ## The two ends -/

/-- The end that a process inside a call has a descriptor of. -/
def Pc.side : Pc → Option End
  | .acquire c | .sleep c | .fallen c | .asleep c | .wakeup _ _ (.sleep c) => some c.side
  | .loop _ _ | .wakeup .nread _ .release => some .write
  | .wakeup .nwrite _ .release => some .read
  | .empty _ | .copy _ _ => some .read
  | _ => none

/-- The pipe is closed for good and nobody is about to say so. -/
def Gone (s : State n) : Prop := s.isOpen .read = false ∧ s.isOpen .write = false ∧ s.lock = none

structure Ends (s : State n) : Prop where
  side : ∀ p e, (s.pc p).side = some e → 0 < s.hold p e
  live : ∀ e, 0 < s.refs e → s.isOpen e = true ∧ ∀ p, s.pc p ≠ .closing e
  closing : ∀ p e, s.pc p = .closing e → s.isOpen e = true
  once : ∀ p q e, s.pc p = .closing e → s.pc q = .closing e → p = q
  gone : Gone s → s.freed = 1
  kept : ¬ Gone s → s.freed = 0

theorem refs_pos {e : End} (h : 0 < s.hold p e) : 0 < s.refs e :=
  lt_of_lt_of_le h (Finset.single_le_sum (f := fun q => s.hold q e) (fun _ _ => Nat.zero_le _)
    (Finset.mem_univ p))

theorem Ends.isOpen (h : Ends s) {e : End} (hp : (s.pc p).side = some e) : s.isOpen e = true :=
  (h.live e (refs_pos (h.side p e hp))).1

theorem Ends.move (h : Ends s) {v : Pc} (hpc : t.pc = update s.pc p v)
    (hhold : t.hold = s.hold) (hopen : t.isOpen = s.isOpen) (hfreed : t.freed = s.freed)
    (hside : ∀ e, v.side = some e → 0 < s.hold p e) (hclosing : ∀ e, v ≠ .closing e)
    (hgone : Gone t ↔ Gone s) : Ends t := by
  have hrefs : ∀ e, t.refs e = s.refs e := fun e => by rw [State.refs, hhold]; rfl
  -- whoever is closing was closing before
  have hback : ∀ q e, t.pc q = .closing e → s.pc q = .closing e := by
    intro q e hq
    rw [hpc] at hq
    by_cases hqp : q = p
    · subst hqp
      rw [update_self] at hq
      exact absurd hq (hclosing e)
    · rwa [update_of_ne hqp] at hq
  refine ⟨?_, ?_, ?_, ?_, ?_, ?_⟩
  · intro q e hq
    rw [hhold]
    rw [hpc] at hq
    by_cases hqp : q = p
    · subst hqp
      rw [update_self] at hq
      exact hside e hq
    · rw [update_of_ne hqp] at hq
      exact h.side q e hq
  · intro e he
    rw [hrefs] at he
    rw [hopen]
    exact ⟨(h.live e he).1, fun q hq => (h.live e he).2 q (hback q e hq)⟩
  · intro q e hq
    rw [hopen]
    exact h.closing q e (hback q e hq)
  · intro q r e hq hr
    exact h.once q r e (hback q e hq) (hback r e hr)
  · intro hg
    rw [hfreed]
    exact h.gone (hgone.1 hg)
  · intro hg
    rw [hfreed]
    exact h.kept fun hs => hg (hgone.2 hs)

theorem Ends.hold (h : Ends s) (hpc : t.pc = s.pc) (hopen : t.isOpen = s.isOpen)
    (hlock : t.lock = s.lock) (hfreed : t.freed = s.freed)
    (hside : ∀ p e, (s.pc p).side = some e → 0 < t.hold p e)
    (hrefs : ∀ e, 0 < t.refs e → 0 < s.refs e) : Ends t := by
  have hgone : Gone t ↔ Gone s := by rw [Gone, Gone, hopen, hlock]
  refine ⟨?_, ?_, ?_, ?_, ?_, ?_⟩
  · rw [hpc]
    exact hside
  · intro e he
    rw [hpc, hopen]
    exact h.live e (hrefs e he)
  · rw [hpc, hopen]
    exact h.closing
  · rw [hpc]
    exact h.once
  · intro hg
    rw [hfreed]
    exact h.gone (hgone.1 hg)
  · intro hg
    rw [hfreed]
    exact h.kept fun hs => hg (hgone.2 hs)

theorem not_gone_of_lock (h : s.lock = some p) : ¬ Gone s := by
  rintro ⟨-, -, hnone⟩
  rw [h] at hnone
  cases hnone

theorem not_gone_of_open {e : End} (h : s.isOpen e = true) : ¬ Gone s := by
  rintro ⟨hread, hwrite, -⟩
  cases e with
  | read => rw [h] at hread; cases hread
  | write => rw [h] at hwrite; cases hwrite

theorem Ends.leave (h : Ends s) (hlock : s.lock = some p) {e : End} (hopen : s.isOpen e = true)
    {v : Pc} (hside : ∀ e, v.side = some e → 0 < s.hold p e) (hclosing : ∀ e, v ≠ .closing e) :
    Ends (s.leave p v) :=
  h.move rfl rfl rfl rfl hside hclosing
    (iff_of_false (not_gone_of_open hopen) (not_gone_of_lock hlock))

theorem Ends.go (h : Ends s) {v : Pc} (hpc : t.pc = update s.pc p v)
    (hhold : t.hold = s.hold) (hopen : t.isOpen = s.isOpen) (hfreed : t.freed = s.freed)
    (hlock : t.lock = s.lock) (hside : v.side = (s.pc p).side) (hclosing : ∀ e, v ≠ .closing e) :
    Ends t :=
  h.move hpc hhold hopen hfreed (fun e he => h.side p e (hside ▸ he)) hclosing
    (by rw [Gone, Gone, hopen, hlock])

theorem setHold_hold (s : State n) (p q : Fin n) (e f : End) (k : Nat) :
    (s.setHold p e k).hold q f = if q = p ∧ f = e then k else s.hold q f := by
  by_cases hq : q = p
  · subst hq
    by_cases hf : f = e
    · subst hf
      simp [State.setHold]
    · simp [State.setHold, hf]
  · simp [State.setHold, hq]

theorem refs_setHold_of_ne {e f : End} (h : f ≠ e) (k : Nat) :
    (s.setHold p e k).refs f = s.refs f := by
  refine Finset.sum_congr rfl fun q _ => ?_
  rw [setHold_hold, if_neg fun hq => h hq.2]

theorem Ends.closeLast {e : End} (h : Ends s) (hpc : s.pc p = .user) (hhold : 0 < s.hold p e)
    (hlast : (s.setHold p e (s.hold p e - 1)).refs e = 0) :
    Ends ((s.setHold p e (s.hold p e - 1)).setPc p (.closing e)) := by
  have hlive := h.live e (refs_pos hhold)
  have hback : ∀ q f, update s.pc p (.closing e) q = .closing f →
      (q = p ∧ f = e) ∨ (q ≠ p ∧ f ≠ e ∧ s.pc q = .closing f) := by
    intro q f hq
    by_cases hqp : q = p
    · subst hqp
      rw [update_self] at hq
      cases hq
      exact .inl ⟨rfl, rfl⟩
    · rw [update_of_ne hqp] at hq
      refine .inr ⟨hqp, ?_, hq⟩
      rintro rfl
      exact hlive.2 q hq
  refine ⟨?_, ?_, ?_, ?_, h.gone, h.kept⟩
  · intro q f hq
    have hqp : q ≠ p := by
      rintro rfl
      rw [State.setPc_pc, update_self] at hq
      cases hq
    rw [State.setPc_pc, update_of_ne hqp] at hq
    have hsame := setHold_hold s p q e f (s.hold p e - 1)
    rw [if_neg fun hc => hqp hc.1] at hsame
    exact lt_of_lt_of_eq (h.side q f hq) hsame.symm
  · intro f hf
    have hfe : f ≠ e := by
      rintro rfl
      exact Nat.ne_of_gt hf hlast
    have hrefs : 0 < s.refs f := lt_of_lt_of_eq hf (refs_setHold_of_ne hfe _)
    refine ⟨(h.live f hrefs).1, fun q hq => ?_⟩
    rcases hback q f hq with ⟨-, hc⟩ | ⟨-, -, hq⟩
    · exact hfe hc
    · exact (h.live f hrefs).2 q hq
  · intro q f hq
    rcases hback q f hq with ⟨-, rfl⟩ | ⟨-, -, hq⟩
    · exact hlive.1
    · exact h.closing q f hq
  · intro q r f hq hr
    rcases hback q f hq with ⟨rfl, rfl⟩ | ⟨-, hfe, hq⟩
    · rcases hback r f hr with ⟨rfl, -⟩ | ⟨-, hfe, -⟩
      · rfl
      · exact absurd rfl hfe
    · rcases hback r f hr with ⟨-, hc⟩ | ⟨-, -, hr⟩
      · exact absurd hc hfe
      · exact h.once q r f hq hr

theorem Ends.shut {e : End} (h : Ends s) (hpc : s.pc p = .closing e) : Ends (s.shut p e) := by
  have hback : ∀ q f, update s.pc p (.wakeup e.chan 0 .free) q = .closing f →
      f ≠ e ∧ s.pc q = .closing f := by
    intro q f hq
    by_cases hqp : q = p
    · subst hqp
      rw [update_self] at hq
      cases hq
    · rw [update_of_ne hqp] at hq
      refine ⟨?_, hq⟩
      rintro rfl
      exact hqp (h.once q p f hq hpc)
  have hkeep : ∀ f, f ≠ e → (s.shut p e).isOpen f = s.isOpen f := fun f hf =>
    update_of_ne hf _ _
  have hlocked : ¬ Gone (s.shut p e) := not_gone_of_lock rfl
  refine ⟨?_, ?_, ?_, ?_, fun hg => absurd hg hlocked, fun _ => ?_⟩
  · intro q f hq
    have hqp : q ≠ p := by
      rintro rfl
      rw [State.shut, State.setPc_pc, update_self] at hq
      cases e <;> cases hq
    rw [State.shut, State.setPc_pc, update_of_ne hqp] at hq
    exact h.side q f hq
  · intro f hf
    have hfe : f ≠ e := by
      rintro rfl
      exact (h.live f hf).2 p hpc
    refine ⟨?_, fun q hq => (h.live f hf).2 q (hback q f hq).2⟩
    rw [hkeep f hfe]
    exact (h.live f hf).1
  · intro q f hq
    rw [hkeep f (hback q f hq).1]
    exact h.closing q f (hback q f hq).2
  · intro q r f hq hr
    exact h.once q r f (hback q f hq).2 (hback r f hr).2
  · exact h.kept (not_gone_of_open (h.closing p e hpc))

theorem Ends.free (h : Ends s) (hlock : s.lock = some p) (hread : s.isOpen .read = false)
    (hwrite : s.isOpen .write = false) :
    Ends { s.leave p .user with freed := s.freed + 1 } := by
  have hnone := h.kept (not_gone_of_lock hlock)
  have hback : ∀ q f, update s.pc p .user q = .closing f → s.pc q = .closing f := by
    intro q f hq
    by_cases hqp : q = p
    · subst hqp
      rw [update_self] at hq
      cases hq
    · rwa [update_of_ne hqp] at hq
  refine ⟨?_, ?_, ?_, ?_, ?_, ?_⟩
  · intro q f hq
    have hqp : q ≠ p := by
      rintro rfl
      rw [State.leave_pc, update_self] at hq
      cases hq
    rw [State.leave_pc, update_of_ne hqp] at hq
    exact h.side q f hq
  · intro f hf
    exact ⟨(h.live f hf).1, fun q hq => (h.live f hf).2 q (hback q f hq)⟩
  · intro q f hq
    exact h.closing q f (hback q f hq)
  · intro q r f hq hr
    exact h.once q r f (hback q f hq) (hback r f hr)
  · intro _
    exact congrArg (· + 1) hnone
  · intro hg
    exact absurd ⟨hread, hwrite, rfl⟩ hg

theorem ends_step (hl : Locked s) (h : Ends s) (hstep : Step s p t) : Ends t := by
  cases hstep with
  | call k hpc hhold =>
    refine h.move rfl rfl rfl rfl (fun e he => ?_) (fun e => Pc.noConfusion) Iff.rfl
    cases he
    exact hhold
  | close e hpc hhold =>
    refine h.hold rfl rfl rfl rfl (fun q f hq => ?_) (fun f hf => ?_)
    · have hqp : q ≠ p := by
        rintro rfl
        rw [hpc] at hq
        cases hq
      rw [setHold_hold, if_neg fun hc => hqp hc.1]
      exact h.side q f hq
    · by_cases hfe : f = e
      · subst hfe
        exact refs_pos hhold
      · rwa [refs_setHold_of_ne hfe] at hf
  | dup q e hhold =>
    refine h.hold rfl rfl rfl rfl (fun r f hr => ?_) (fun f hf => ?_)
    · rw [setHold_hold]
      split
      · exact Nat.succ_pos _
      · exact h.side r f hr
    · by_cases hfe : f = e
      · subst hfe
        exact refs_pos hhold
      · rwa [refs_setHold_of_ne hfe] at hf
  | kill q _ => exact h.hold rfl rfl rfl rfl h.side fun _ he => he
  | killAsleep q k hq =>
    exact h.go rfl rfl rfl rfl rfl (by rw [hq]; rfl) fun e => Pc.noConfusion
  | full m i hpc _ _ => exact h.go rfl rfl rfl rfl rfl (by rw [hpc]; rfl) fun e => Pc.noConfusion
  | put m i b hpc _ _ => exact h.go rfl rfl rfl rfl rfl (by rw [hpc]; rfl) fun e => Pc.noConfusion
  | wrote m i hpc => exact h.go rfl rfl rfl rfl rfl (by rw [hpc]; rfl) fun e => Pc.noConfusion
  | wait m hpc _ _ => exact h.go rfl rfl rfl rfl rfl (by rw [hpc]; rfl) fun e => Pc.noConfusion
  | ready m hpc => exact h.go rfl rfl rfl rfl rfl (by rw [hpc]; rfl) fun e => Pc.noConfusion
  | take m i v hpc _ hv =>
    rcases hv with rfl | rfl
    · exact h.go rfl rfl rfl rfl rfl (by rw [hpc]; rfl) fun e => Pc.noConfusion
    · exact h.go rfl rfl rfl rfl rfl (by rw [hpc]; rfl) fun e => Pc.noConfusion
  | done m i hpc => exact h.go rfl rfl rfl rfl rfl (by rw [hpc]; rfl) fun e => Pc.noConfusion
  | pass ch q a hpc _ =>
    refine h.go rfl rfl rfl rfl rfl ?_ fun e => Pc.noConfusion
    rw [hpc]
    cases a <;> cases ch <;> rfl
  | wake ch q a k hpc hne hq =>
    have hwoken : Ends (s.setPc q (.acquire k)) :=
      h.go rfl rfl rfl rfl rfl (by rw [hq]; rfl) fun e => Pc.noConfusion
    refine hwoken.go rfl rfl rfl rfl rfl ?_ fun e => Pc.noConfusion
    rw [State.setPc_pc, update_of_ne hne.symm, hpc]
    cases a <;> cases ch <;> rfl
  | wokeSleep ch j k hpc _ =>
    refine h.go rfl rfl rfl rfl rfl ?_ fun e => Pc.noConfusion
    rw [hpc]
    cases ch <;> rfl
  | fall k hpc => exact h.go rfl rfl rfl rfl rfl (by rw [hpc]; rfl) fun e => Pc.noConfusion
  | stop m i hpc _ =>
    have hopen : s.isOpen .write = true := h.isOpen (p := p) (by rw [hpc]; rfl)
    exact h.leave (hl.owner (by rw [hpc]; rfl)) hopen (fun _ he => by cases he)
      fun e => Pc.noConfusion
  | interrupted m hpc =>
    have hopen : s.isOpen .read = true := h.isOpen (p := p) (by rw [hpc]; rfl)
    exact h.leave (hl.owner (by rw [hpc]; rfl)) hopen (fun _ he => by cases he)
      fun e => Pc.noConfusion
  | sleep k hpc =>
    have hside : (s.pc p).side = some k.side := by rw [hpc]; rfl
    refine h.leave (hl.owner (by rw [hpc]; rfl)) (h.isOpen hside) (fun e he => ?_)
      fun e => Pc.noConfusion
    cases he
    exact h.side p _ hside
  | wokeLeave ch j a hpc hj ha =>
    have hopen : ∃ e, s.isOpen e = true := by
      cases a with
      | sleep c => exact ⟨_, h.isOpen (p := p) (e := c.side) (by rw [hpc]; cases ch <;> rfl)⟩
      | release =>
        cases ch with
        | nread => exact ⟨_, h.isOpen (p := p) (e := .write) (by rw [hpc]; rfl)⟩
        | nwrite => exact ⟨_, h.isOpen (p := p) (e := .read) (by rw [hpc]; rfl)⟩
      | free => exact (ha rfl).elim (fun hr => ⟨_, hr⟩) fun hw => ⟨_, hw⟩
    rcases hopen with ⟨e, he⟩
    exact h.leave (hl.owner (by rw [hpc]; rfl)) he (fun _ hv => by cases hv)
      fun e => Pc.noConfusion
  | wokeFree ch j hpc hj hread hwrite => exact h.free (hl.owner (by rw [hpc]; rfl)) hread hwrite
  | enter k hpc hlock =>
    have hside : (s.pc p).side = some k.side := by rw [hpc]; rfl
    have hopen := not_gone_of_open (h.isOpen hside)
    cases k with
    | write m i =>
      refine h.move rfl rfl rfl rfl (fun e he => ?_) (fun e => Pc.noConfusion)
        (iff_of_false (not_gone_of_lock rfl) hopen)
      cases he
      exact h.side p _ hside
    | read m =>
      refine h.move rfl rfl rfl rfl (fun e he => ?_) (fun e => Pc.noConfusion)
        (iff_of_false (not_gone_of_lock rfl) hopen)
      cases he
      exact h.side p _ hside
  | shut e hpc hlock => exact h.shut hpc
  | closeLast e hpc hhold hlast => exact h.closeLast hpc hhold hlast

/-! ## Every run -/

theorem reachable_inv {p₀ : Fin n} {data : Fin PIPESIZE → UInt8}
    (h : (machine n).Reaches (.boot p₀ data) s) : Locked s ∧ Ring s ∧ Ends s := by
  refine h.invariant (I := fun s => Locked s ∧ Ring s ∧ Ends s) ⟨?_, ?_, ?_⟩ ?_
  · intro p
    exact iff_of_false Bool.false_ne_true (Option.some_ne_none p).symm
  · have hempty : ((State.boot p₀ data).nwrite - (State.boot p₀ data).nread).toNat = 0 := by
      exact (by decide : ((0 : UInt32) - 0).toNat = 0)
    refine ⟨?_, ?_⟩
    · rw [hempty]
      exact Nat.zero_le _
    · rw [State.content, hempty, Fifo.ring_zero]
      rfl
  · have hopen : ¬ Gone (State.boot p₀ data) := not_gone_of_open (e := .read) rfl
    refine ⟨?_, ?_, ?_, ?_, fun hg => absurd hg hopen, fun _ => rfl⟩
    · intro p e he
      cases he
    · intro e _
      exact ⟨rfl, fun _ => Pc.noConfusion⟩
    · intro p e he
      cases he
    · intro p q e he
      cases he
  · rintro s ⟨p, a⟩ t ⟨hl, hr, he⟩ hstep
    have hcases := step_cases hstep
    exact ⟨locked_step hl hcases, ring_step hr hcases, ends_step hl he hcases⟩

/-- A pipe never holds more than `PIPESIZE` bytes, gives back what was put into it in order, and its
page is freed once: when both ends are closed. -/
theorem pipe_fifo {p₀ : Fin n} {data : Fin PIPESIZE → UInt8}
    (h : (machine n).Reaches (.boot p₀ data) s) :
    (s.nwrite - s.nread).toNat ≤ PIPESIZE ∧ s.taken <+: s.put ∧
      s.put = s.taken ++ (List.range (s.nwrite - s.nread).toNat).map
        (fun k => s.data (Fifo.slot PIPESIZE (s.nread + UInt32.ofNat k))) ∧
      (s.isOpen .read = false ∧ s.isOpen .write = false ∧ s.lock = none → s.freed = 1) ∧
      (¬ (s.isOpen .read = false ∧ s.isOpen .write = false ∧ s.lock = none) → s.freed = 0) := by
  rcases reachable_inv h with ⟨-, hring, hends⟩
  refine ⟨hring.bound, ?_, hring.order, hends.gone, hends.kept⟩
  rw [hring.order]
  exact List.prefix_append s.taken s.content

/-- A process writes a byte to itself, reads it, and closes both ends. -/
def echo : List (Fin 1 × Act 1) :=
  [(0, .write 1), (0, .run none), (0, .run (some 7)), (0, .run none), (0, .run none), (0, .run none),
    (0, .read 1), (0, .run none), (0, .run none), (0, .run (some 0)), (0, .run none), (0, .run none),
    (0, .run none),
    (0, .close .write), (0, .run none), (0, .run none), (0, .run none),
    (0, .close .read), (0, .run none), (0, .run none), (0, .run none)]

theorem pipe_fifo_echo :
    ∃ s : State 1, (machine 1).Reaches (.boot 0 fun _ => 0) s ∧ s.put = [7] ∧ s.taken = [7] ∧
      s.isOpen .read = false ∧ s.isOpen .write = false ∧ s.freed = 1 := by
  have hrun : ((machine 1).exec (.boot 0 fun _ => 0) echo).any (fun s => decide (s.put = [7] ∧
      s.taken = [7] ∧ s.isOpen .read = false ∧ s.isOpen .write = false ∧ s.lock = none)) = true := by
    decide +kernel
  rcases (Option.any_eq_true _ _).1 hrun with ⟨s, hs, htest⟩
  rcases of_decide_eq_true htest with ⟨hput, htaken, hread, hwrite, hlock⟩
  have hreach := Machine.reaches_of_exec hs
  have hfreed := (pipe_fifo hreach).2.2.2.1 ⟨hread, hwrite, hlock⟩
  exact ⟨s, hreach, hput, htaken, hread, hwrite, hfreed⟩

end Xv6Schedulers.Pipe

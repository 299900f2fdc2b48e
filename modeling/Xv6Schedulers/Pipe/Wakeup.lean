import Xv6Schedulers.Pipe.Order

/-!
# Wakeup — who sleeps on a pipe

A reader sleeps because the pipe is empty, a writer because it is full.  Whoever changes that while
holding `pi->lock` owes the sleepers a `wakeup` before the lock is free again.

* `Blocked` is the reason to sleep on a channel, `Owed` the pending `wakeup`.
* `Vigil` is the invariant: every process that sleeps, or is about to, is blocked or owed.
* A writer found killed at the head of its loop leaves without a `wakeup`.  When it has put bytes into
  the ring since it took the lock, the debt is never paid: `killed_writer_forgets_reader`.
-/

namespace Xv6Schedulers.Pipe

open Lib Function

variable {n : Nat} {s t : State n} {p q : Fin n}

/-- The reason to sleep on a channel. -/
def Blocked (s : State n) : Chan → Prop
  | .nread => s.nread = s.nwrite ∧ s.isOpen .write = true
  | .nwrite => s.Full ∧ s.isOpen .read = true

instance (s : State n) (ch : Chan) : Decidable (Blocked s ch) :=
  match ch with
  | .nread => inferInstanceAs (Decidable (_ ∧ _))
  | .nwrite => inferInstanceAs (Decidable (_ ∧ _))

/-- The channel that a process sleeps on, or is about to. -/
def Pc.dozes : Pc → Option Chan
  | .sleep c | .fallen c | .asleep c => some c.chan
  | _ => none

/-- The owner of the lock will wake process `q` up if it sleeps on the channel; `i₀` is the number of
bytes a writer came with. -/
def Pc.owes (i₀ : Nat) (ch : Chan) (q : Nat) : Pc → Prop
  | .loop _ i => ch = .nread ∧ i₀ < i
  | .copy _ _ => ch = .nwrite
  | .wakeup ch' j _ => ch' = ch ∧ j ≤ q
  | _ => False

def Owed (s : State n) (ch : Chan) (q : Fin n) : Prop :=
  ∃ p, s.lock = some p ∧ (s.pc p).owes (s.since p) ch q

structure Vigil (s : State n) : Prop where
  sleeper : ∀ q ch, (s.pc q).dozes = some ch → Blocked s ch ∨ Owed s ch q
  /-- a writer that found the pipe full still finds it full -/
  full : ∀ p ch j c, s.pc p = .wakeup ch j (.sleep c) → Blocked s c.chan
  since : ∀ p m i, s.pc p = .loop m i → s.since p ≤ i ∧ (s.since p < i → s.isOpen .read = true)

/-! ## Others do not touch the pipe while the lock is held -/

/-- The parts of the state that the lock protects. -/
structure SameRing (s t : State n) : Prop where
  nread : t.nread = s.nread
  nwrite : t.nwrite = s.nwrite
  isOpen : t.isOpen = s.isOpen

theorem SameRing.blocked (h : SameRing s t) (ch : Chan) : Blocked t ch ↔ Blocked s ch := by
  cases ch with
  | nread => rw [Blocked, Blocked, h.nread, h.nwrite, h.isOpen]
  | nwrite => rw [Blocked, Blocked, State.Full, State.Full, h.nread, h.nwrite, h.isOpen]

theorem step_frame (hl : Locked s) (hstep : Step s p t) (hq : (s.pc q).holds = true)
    (hne : q ≠ p) :
    SameRing s t ∧ t.pc q = s.pc q ∧ t.since q = s.since q ∧ t.lock = s.lock := by
  have howner := hl.owner hq
  have hout : ¬ (s.pc p).holds = true := fun hp => by
    rw [hl.owner hp] at howner
    exact hne (Option.some.inj howner).symm
  have hnone : s.lock ≠ none := by
    rw [howner]
    exact Option.some_ne_none q
  cases hstep with
  | call k hpc _ => exact ⟨⟨rfl, rfl, rfl⟩, update_of_ne hne _ _, rfl, rfl⟩
  | close e _ _ => exact ⟨⟨rfl, rfl, rfl⟩, rfl, rfl, rfl⟩
  | closeLast e _ _ _ => exact ⟨⟨rfl, rfl, rfl⟩, update_of_ne hne _ _, rfl, rfl⟩
  | dup r e _ => exact ⟨⟨rfl, rfl, rfl⟩, rfl, rfl, rfl⟩
  | kill r _ => exact ⟨⟨rfl, rfl, rfl⟩, rfl, rfl, rfl⟩
  | killAsleep r k hr =>
    have hrq : q ≠ r := by
      rintro rfl
      rw [hr] at hq
      cases hq
    exact ⟨⟨rfl, rfl, rfl⟩, update_of_ne hrq _ _, rfl, rfl⟩
  | fall k hpc => exact ⟨⟨rfl, rfl, rfl⟩, update_of_ne hne _ _, rfl, rfl⟩
  | enter k _ hlock => exact absurd hlock hnone
  | shut e _ hlock => exact absurd hlock hnone
  | stop m i hpc _ | full m i hpc _ _ | put m i b hpc _ _ | wrote m i hpc | interrupted m hpc
  | wait m hpc _ _ | ready m hpc | take m i v hpc _ _ | done m i hpc | pass ch r a hpc _
  | wake ch r a k hpc _ _ | wokeSleep ch j k hpc _ | wokeLeave ch j a hpc _ _
  | wokeFree ch j hpc _ _ _ | sleep k hpc =>
    exact absurd (by rw [hpc]; rfl) hout

theorem dozes_back (hstep : Step s p t) (hp : ¬ (s.pc p).holds = true) {ch : Chan}
    (hq : (t.pc q).dozes = some ch) : (s.pc q).dozes = some ch := by
  have hupdate : ∀ {v : Pc} {r : Fin n}, (v.dozes = some ch → (s.pc r).dozes = some ch) →
      (update s.pc r v q).dozes = some ch → (s.pc q).dozes = some ch := by
    intro v r hv hu
    by_cases hqr : q = r
    · subst hqr
      rw [update_self] at hu
      exact hv hu
    · rwa [update_of_ne hqr] at hu
  cases hstep with
  | call k hpc _ => exact hupdate (fun hv => by cases hv) hq
  | close e _ _ => exact hq
  | closeLast e _ _ _ => exact hupdate (fun hv => by cases hv) hq
  | dup r e _ => exact hq
  | kill r _ => exact hq
  | killAsleep r k hr => exact hupdate (fun hv => by cases hv) hq
  | fall k hpc =>
    refine hupdate (fun hv => ?_) hq
    rw [hpc]
    exact hv
  | enter k hpc _ =>
    cases k with
    | write m i => exact hupdate (fun hv => by cases hv) hq
    | read m => exact hupdate (fun hv => by cases hv) hq
  | shut e _ _ => exact hupdate (fun hv => by cases hv) hq
  | stop m i hpc _ | full m i hpc _ _ | put m i b hpc _ _ | wrote m i hpc | interrupted m hpc
  | wait m hpc _ _ | ready m hpc | take m i v hpc _ _ | done m i hpc | pass ch r a hpc _
  | wake ch r a k hpc _ _ | wokeSleep ch j k hpc _ | wokeLeave ch j a hpc _ _
  | wokeFree ch j hpc _ _ _ | sleep k hpc =>
    exact absurd (by rw [hpc]; rfl) hp

/-! ## The invariant survives -/

theorem Vigil.quiet (h : Vigil s) (hl : Locked t) (hring : SameRing s t) (hlock : t.lock = s.lock)
    (howner : ∀ q, s.lock = some q → t.pc q = s.pc q ∧ t.since q = s.since q)
    (hdoze : ∀ q ch, (t.pc q).dozes = some ch → (s.pc q).dozes = some ch) : Vigil t := by
  have hin : ∀ q, (t.pc q).holds = true → t.pc q = s.pc q ∧ t.since q = s.since q := by
    intro q hq
    exact howner q (hlock ▸ hl.owner hq)
  refine ⟨?_, ?_, ?_⟩
  · intro q ch hq
    rcases h.sleeper q ch (hdoze q ch hq) with hb | ⟨p, hp, how⟩
    · exact .inl ((hring.blocked ch).2 hb)
    · refine .inr ⟨p, hlock.trans hp, ?_⟩
      rw [(howner p hp).1, (howner p hp).2]
      exact how
  · intro q ch j c hq
    have hpc := (hin q (by rw [hq]; rfl)).1
    rw [hpc] at hq
    exact (hring.blocked _).2 (h.full q ch j c hq)
  · intro q m i hq
    have hsame := hin q (by rw [hq]; rfl)
    rw [hsame.1] at hq
    rw [hsame.2, hring.isOpen]
    exact h.since q m i hq

theorem Vigil.enter (h : Vigil s) (hl : Locked t) (hlock : s.lock = none) {v : Pc}
    (hpc : t.pc = update s.pc p v) (ht : t.lock = some p) (hnot : v.dozes = none)
    (hfull : ∀ ch j c, v ≠ .wakeup ch j (.sleep c))
    (hsince : ∀ m i, v = .loop m i → t.since p = i)
    (hblocked : ∀ ch, Blocked s ch → Blocked t ch ∨ v.owes (t.since p) ch 0) : Vigil t := by
  have hself : t.pc p = v := by rw [hpc, update_self]
  have honly : ∀ q, (t.pc q).holds = true → q = p := by
    intro q hq
    have howner := hl.owner hq
    rw [ht] at howner
    exact (Option.some.inj howner).symm
  refine ⟨?_, ?_, ?_⟩
  · intro q ch hq
    have hqp : q ≠ p := by
      rintro rfl
      rw [hself, hnot] at hq
      cases hq
    rw [hpc, update_of_ne hqp] at hq
    rcases h.sleeper q ch hq with hb | ⟨r, hr, -⟩
    · refine (hblocked ch hb).imp_right fun how => ⟨p, ht, ?_⟩
      rw [hself]
      cases v with
      | wakeup ch' j a => exact ⟨how.1, how.2.trans (Nat.zero_le _)⟩
      | loop m i => exact how
      | copy m i => exact how
      | _ => exact how.elim
    · rw [hlock] at hr
      cases hr
  · intro q ch j c hq
    have hqp := honly q (by rw [hq]; rfl)
    subst hqp
    exact absurd (hself.symm.trans hq) (hfull ch j c)
  · intro q m i hq
    have hqp := honly q (by rw [hq]; rfl)
    subst hqp
    have hi := hsince m i (hself.symm.trans hq)
    exact ⟨hi.le, fun hlt => absurd hlt (by rw [hi]; exact lt_irrefl i)⟩

theorem Vigil.inside (h : Vigil s) (hl : Locked t) (hlock : s.lock = some p) {v : Pc}
    (hpc : t.pc = update s.pc p v) (ht : t.lock = some p)
    (hwake : ∀ q ch, (s.pc q).dozes = some ch → q ≠ p →
      (Blocked s ch ∨ (s.pc p).owes (s.since p) ch q) →
      Blocked t ch ∨ v.owes (t.since p) ch q)
    (hdoze : ∀ ch, v.dozes = some ch → Blocked t ch)
    (hfull : ∀ ch j c, v = .wakeup ch j (.sleep c) → Blocked t c.chan)
    (hsince : ∀ m i, v = .loop m i → t.since p ≤ i ∧ (t.since p < i → t.isOpen .read = true)) :
    Vigil t := by
  have hself : t.pc p = v := by rw [hpc, update_self]
  have honly : ∀ q, (t.pc q).holds = true → q = p := by
    intro q hq
    have howner := hl.owner hq
    rw [ht] at howner
    exact (Option.some.inj howner).symm
  refine ⟨?_, ?_, ?_⟩
  · intro q ch hq
    by_cases hqp : q = p
    · subst hqp
      rw [hself] at hq
      exact .inl (hdoze ch hq)
    · rw [hpc, update_of_ne hqp] at hq
      have hold : Blocked s ch ∨ (s.pc p).owes (s.since p) ch q := by
        refine (h.sleeper q ch hq).imp_right ?_
        rintro ⟨r, hr, how⟩
        rw [hlock] at hr
        cases hr
        exact how
      refine (hwake q ch hq hqp hold).imp_right fun how => ⟨p, ht, ?_⟩
      rw [hself]
      exact how
  · intro q ch j c hq
    have hqp := honly q (by rw [hq]; rfl)
    subst hqp
    exact hfull ch j c (hself.symm.trans hq)
  · intro q m i hq
    have hqp := honly q (by rw [hq]; rfl)
    subst hqp
    exact hsince m i (hself.symm.trans hq)

theorem Vigil.leave (h : Vigil s) (hl : Locked t) (hlock : s.lock = some p) {v : Pc}
    (hpc : t.pc = update s.pc p v) (ht : t.lock = none) (hring : SameRing s t)
    (hdebt : ∀ q ch, (s.pc q).dozes = some ch → (s.pc p).owes (s.since p) ch q → Blocked s ch)
    (hdoze : v.dozes = (s.pc p).dozes ∨ v.dozes = none) : Vigil t := by
  have hout : ∀ q, ¬ (t.pc q).holds = true := by
    intro q hq
    have howner := hl.owner hq
    rw [ht] at howner
    cases howner
  refine ⟨?_, ?_, ?_⟩
  · intro q ch hq
    have hq' : (s.pc q).dozes = some ch := by
      by_cases hqp : q = p
      · subst hqp
        rw [hpc, update_self] at hq
        rcases hdoze with hd | hd
        · rwa [← hd]
        · rw [hd] at hq
          cases hq
      · rwa [hpc, update_of_ne hqp] at hq
    refine .inl ((hring.blocked ch).2 ?_)
    rcases h.sleeper q ch hq' with hb | ⟨r, hr, how⟩
    · exact hb
    · rw [hlock] at hr
      cases hr
      exact hdebt q ch hq' how
  · intro q ch j c hq
    exact absurd (by rw [hq]; rfl) (hout q)
  · intro q m i hq
    exact absurd (by rw [hq]; rfl) (hout q)

/-- A writer found killed has put nothing into the ring since it took the lock. -/
def Clean (s : State n) (a : Fin n × Act n) (t : State n) : Prop :=
  ∀ m i, s.pc a.1 = .loop m i → t.pc a.1 = .user → s.killed a.1 = true → s.since a.1 = i

theorem wakes_all {ch ch' : Chan} {a : After} {i₀ : Nat} (q : Nat) (h : ch' = ch) :
    (Pc.wakeup ch' 0 a).owes i₀ ch q :=
  ⟨h, Nat.zero_le q⟩

theorem Vigil.rouse (h : Vigil s) (hl : Locked s) (killed : Fin n → Bool) {k : Call}
    (hq : s.pc q = .asleep k) : Vigil (State.setPc { s with killed := killed } q (.acquire k)) := by
  refine h.quiet (hl.keep rfl rfl (by rw [hq]; rfl)) ⟨rfl, rfl, rfl⟩ rfl (fun r hr => ?_)
    (fun r ch hr => ?_)
  · have hrq : r ≠ q := by
      rintro rfl
      have hin := (hl r).2 hr
      rw [hq] at hin
      cases hin
    exact ⟨update_of_ne hrq _ _, rfl⟩
  · by_cases hrq : r = q
    · subst hrq
      rw [State.setPc_pc, update_self] at hr
      cases hr
    · rwa [State.setPc_pc, update_of_ne hrq] at hr

theorem Vigil.pass (h : Vigil s) (hl : Locked s) {ch : Chan} {a : After}
    (hl' : Locked (s.setPc p (.wakeup ch (q + 1) a))) (hpc : s.pc p = .wakeup ch q a)
    (hq : q = p ∨ ∀ k, k.chan = ch → s.pc q ≠ .asleep k ∧ s.pc q ≠ .fallen k) :
    Vigil (s.setPc p (.wakeup ch (q + 1) a)) := by
  have hlock := hl.owner (p := p) (by rw [hpc]; rfl)
  refine h.inside hl' hlock rfl hlock (fun r ch' hr hrp hold => ?_) (fun _ hv => by cases hv)
    (fun ch' j c hv => ?_) (fun _ _ hv => by cases hv)
  · rw [hpc] at hold
    refine hold.imp_right fun how => ⟨how.1, ?_⟩
    refine Nat.succ_le_of_lt (lt_of_le_of_ne how.2 fun heq => ?_)
    have hrq : q = r := Fin.ext heq
    subst hrq
    rcases hq with rfl | hq
    · exact hrp rfl
    · cases hpcq : s.pc q with
      | sleep k =>
        have hin := hl.owner (p := q) (by rw [hpcq]; rfl)
        rw [hlock] at hin
        exact hrp (Option.some.inj hin).symm
      | fallen k =>
        rw [hpcq] at hr
        exact (hq k (how.1 ▸ Option.some.inj hr)).2 hpcq
      | asleep k =>
        rw [hpcq] at hr
        exact (hq k (how.1 ▸ Option.some.inj hr)).1 hpcq
      | _ =>
        rw [hpcq] at hr
        cases hr
  · cases hv
    exact h.full p ch q c hpc

theorem vigil_inside (h : Vigil s) (hl : Locked s) (hl' : Locked t) (hstep : Step s p t)
    (hp : (s.pc p).holds = true)
    (hclean : ∀ m i, s.pc p = .loop m i → t.pc p = .user → s.killed p = true → s.since p = i) :
    Vigil t := by
  have hlock := hl.owner hp
  cases hstep with
  | stop m i hpc hstop =>
    refine h.leave hl' hlock rfl rfl ⟨rfl, rfl, rfl⟩ (fun q ch _ how => ?_) (.inr rfl)
    rw [hpc] at how
    -- bytes were put into the ring: the read end was open, and the writer was not killed
    exfalso
    rcases hstop with hclosed | hkilled
    · rw [((h.since p m i hpc).2 how.2)] at hclosed
      cases hclosed
    · have heq := hclean m i hpc (by rw [State.leave_pc, update_self]) hkilled
      exact absurd how.2 (by rw [heq]; exact lt_irrefl i)
  | full m i hpc hopen hfull =>
    refine h.inside hl' hlock rfl hlock (fun q ch _ _ hold => ?_) (fun _ hv => by cases hv)
      (fun ch j c hv => ?_) (fun _ _ hv => by cases hv)
    · rw [hpc] at hold
      rcases hold with hb | how
      · exact .inl hb
      · exact .inr (wakes_all q how.1.symm)
    · cases hv
      exact ⟨hfull, hopen⟩
  | put m i b hpc hopen hfull =>
    have hsince := (h.since p m i hpc).1
    refine h.inside hl' hlock rfl hlock (fun q ch _ _ hold => ?_) (fun _ hv => by cases hv)
      (fun _ _ _ hv => by cases hv) (fun m' i' hv => ?_)
    · rw [hpc] at hold
      cases ch with
      | nread => exact .inr ⟨rfl, Nat.lt_succ_of_le hsince⟩
      | nwrite =>
        -- nobody waits for room: the ring is not full
        rcases hold with hb | how
        · exact absurd hb.1 hfull
        · cases how.1
    · cases hv
      exact ⟨Nat.le_succ_of_le hsince, fun _ => hopen⟩
  | wrote m i hpc =>
    refine h.inside hl' hlock rfl hlock (fun q ch _ _ hold => ?_) (fun _ hv => by cases hv)
      (fun _ _ _ hv => by cases hv) (fun _ _ hv => by cases hv)
    rw [hpc] at hold
    rcases hold with hb | how
    · exact .inl hb
    · exact .inr (wakes_all q how.1.symm)
  | interrupted m hpc =>
    refine h.leave hl' hlock rfl rfl ⟨rfl, rfl, rfl⟩ (fun q ch _ how => ?_) (.inr rfl)
    rw [hpc] at how
    exact how.elim
  | wait m hpc hempty hopen =>
    refine h.inside hl' hlock rfl hlock (fun q ch _ _ hold => ?_) (fun ch hv => ?_)
      (fun _ _ _ hv => by cases hv) (fun _ _ hv => by cases hv)
    · rw [hpc] at hold
      exact hold.imp_right False.elim
    · cases hv
      exact ⟨hempty, hopen⟩
  | ready m hpc =>
    refine h.inside hl' hlock rfl hlock (fun q ch _ _ hold => ?_) (fun _ hv => by cases hv)
      (fun _ _ _ hv => by cases hv) (fun _ _ hv => by cases hv)
    rw [hpc] at hold
    exact hold.imp_right False.elim
  | take m i v hpc hne hv =>
    have hpays : v.dozes = none ∧ (∀ ch j c, v ≠ .wakeup ch j (.sleep c)) ∧
        (∀ m i, v ≠ .loop m i) ∧ ∀ q, v.owes (s.since p) .nwrite q := by
      rcases hv with rfl | rfl
      · exact ⟨rfl, fun _ _ _ => Pc.noConfusion, fun _ _ => Pc.noConfusion, fun _ => rfl⟩
      · exact ⟨rfl, (by rintro _ _ _ ⟨⟩), fun _ _ => Pc.noConfusion, fun q => wakes_all q rfl⟩
    refine h.inside hl' hlock rfl hlock (fun q ch _ _ hold => ?_)
      (fun _ hd => by rw [hpays.1] at hd; cases hd)
      (fun ch j c hd => absurd hd (hpays.2.1 ch j c)) (fun m i hd => absurd hd (hpays.2.2.1 m i))
    rw [hpc] at hold
    cases ch with
    | nread =>
      -- nobody waits for bytes: the ring is not empty
      rcases hold with hb | how
      · exact absurd hb.1 hne
      · cases how
    | nwrite => exact .inr (hpays.2.2.2 q)
  | done m i hpc =>
    refine h.inside hl' hlock rfl hlock (fun q ch _ _ hold => ?_) (fun _ hv => by cases hv)
      (fun _ _ _ hv => by cases hv) (fun _ _ hv => by cases hv)
    rw [hpc] at hold
    rcases hold with hb | how
    · exact .inl hb
    · exact .inr (wakes_all q how.symm)
  | pass ch q a hpc hq => exact h.pass hl hl' hpc hq
  | wake ch q a k hpc hne hq =>
    have hwoken := h.rouse hl s.killed hq
    have hlwoken : Locked (s.setPc q (.acquire k)) := hl.keep rfl rfl (by rw [hq]; rfl)
    refine Vigil.pass (s := s.setPc q (.acquire k)) hwoken hlwoken hl' ?_ (.inr fun k' _ => ?_)
    · rw [State.setPc_pc, update_of_ne hne.symm, hpc]
    · rw [State.setPc_pc, update_self]
      exact ⟨Pc.noConfusion, Pc.noConfusion⟩
  | wokeSleep ch j k hpc hj =>
    refine h.inside hl' hlock rfl hlock (fun q ch' _ _ hold => ?_) (fun ch' hv => ?_)
      (fun _ _ _ hv => by cases hv) (fun _ _ hv => by cases hv)
    · rw [hpc] at hold
      refine hold.imp_right fun how => ?_
      exact absurd (hj.trans how.2) (Nat.not_le_of_lt q.isLt)
    · cases hv
      exact h.full p ch j k hpc
  | wokeLeave ch j a hpc hj _ =>
    refine h.leave hl' hlock rfl rfl ⟨rfl, rfl, rfl⟩ (fun q ch' _ how => ?_) (.inr rfl)
    rw [hpc] at how
    exact absurd (hj.trans how.2) (Nat.not_le_of_lt q.isLt)
  | wokeFree ch j hpc hj _ _ =>
    refine h.leave hl' hlock rfl rfl ⟨rfl, rfl, rfl⟩ (fun q ch' _ how => ?_) (.inr rfl)
    rw [hpc] at how
    exact absurd (hj.trans how.2) (Nat.not_le_of_lt q.isLt)
  | sleep k hpc =>
    refine h.leave hl' hlock rfl rfl ⟨rfl, rfl, rfl⟩ (fun q ch' _ how => ?_) (.inl ?_)
    · rw [hpc] at how
      exact how.elim
    · rw [hpc]
      rfl
  | call _ hpc _ | close _ hpc _ | closeLast _ hpc _ _ | enter _ hpc _ | shut _ hpc _
  | fall _ hpc =>
    rw [hpc] at hp
    cases hp
  | dup q e _ => exact ⟨h.sleeper, h.full, h.since⟩
  | kill q _ => exact ⟨h.sleeper, h.full, h.since⟩
  | killAsleep q k hq => exact h.rouse hl _ hq

theorem vigil_outside (h : Vigil s) (hl : Locked s) (hl' : Locked t) (hstep : Step s p t)
    (hp : ¬ (s.pc p).holds = true) : Vigil t := by
  cases hlock : s.lock with
  | some q =>
    have hin : (s.pc q).holds = true := (hl q).2 hlock
    have hne : q ≠ p := by
      rintro rfl
      exact hp hin
    rcases step_frame hl hstep hin hne with ⟨hring, hpc, hsince, hsame⟩
    refine h.quiet hl' hring hsame (fun r hr => ?_) fun r ch hr => dozes_back hstep hp hr
    rw [hlock] at hr
    cases hr
    exact ⟨hpc, hsince⟩
  | none =>
    have hfree : ∀ q, s.lock = some q → t.pc q = s.pc q ∧ t.since q = s.since q := by
      intro q hq
      rw [hlock] at hq
      cases hq
    have hback : ∀ q ch, (t.pc q).dozes = some ch → (s.pc q).dozes = some ch :=
      fun q ch hq => dozes_back hstep hp hq
    cases hstep with
    | enter k hpc _ =>
      cases k with
      | write m i =>
        refine h.enter hl' hlock rfl rfl rfl (fun _ _ _ => Pc.noConfusion) (fun m i hv => ?_)
          fun ch hb => .inl hb
        cases hv
        exact update_self _ _ _
      | read m =>
        exact h.enter hl' hlock rfl rfl rfl (fun _ _ _ => Pc.noConfusion)
          (fun m i hv => by cases hv) fun ch hb => .inl hb
    | shut e hpc _ =>
      refine h.enter hl' hlock rfl rfl rfl (by rintro _ _ _ ⟨⟩) (fun m i hv => by cases hv)
        fun ch hb => ?_
      -- closing the write end concerns the readers, closing the read end the writers
      cases e with
      | read =>
        cases ch with
        | nread => exact .inl hb
        | nwrite => exact .inr (wakes_all 0 rfl)
      | write =>
        cases ch with
        | nread => exact .inr (wakes_all 0 rfl)
        | nwrite => exact .inl hb
    | call _ _ _ | close _ _ _ | closeLast _ _ _ _ | dup _ _ _ | kill _ _ | killAsleep _ _ _
    | fall _ _ => exact h.quiet hl' ⟨rfl, rfl, rfl⟩ rfl hfree hback
    | stop m i hpc _ | full m i hpc _ _ | put m i b hpc _ _ | wrote m i hpc | interrupted m hpc
    | wait m hpc _ _ | ready m hpc | take m i v hpc _ _ | done m i hpc | pass ch r a hpc _
    | wake ch r a k hpc _ _ | wokeSleep ch j k hpc _ | wokeLeave ch j a hpc _ _
    | wokeFree ch j hpc _ _ _ | sleep k hpc =>
      exact absurd (by rw [hpc]; rfl) hp

/-! ## Every run -/

/-- In a run in which no writer is found killed after it has put bytes into the ring, whenever the
lock is free a sleeping reader finds the pipe empty and a sleeping writer finds it full, and the other
end is open. -/
theorem sleepers_blocked {p₀ : Fin n} {data : Fin PIPESIZE → UInt8}
    (h : (machine n).Path Clean (.boot p₀ data) s) (hlock : s.lock = none) (q : Fin n) :
    (∀ m, s.pc q = .asleep (.read m) → s.nread = s.nwrite ∧ s.isOpen .write = true) ∧
      (∀ m i, s.pc q = .asleep (.write m i) →
        s.nwrite = s.nread + UInt32.ofNat PIPESIZE ∧ s.isOpen .read = true) := by
  have hinv : Locked s ∧ Vigil s := by
    refine h.invariant (I := fun s => Locked s ∧ Vigil s) ⟨?_, ?_⟩ ?_
    · exact (reachable_inv (.refl (State.boot p₀ data))).1
    · refine ⟨?_, ?_, ?_⟩
      · intro q ch hq
        cases hq
      · intro q ch j c hq
        cases hq
      · intro q m i hq
        cases hq
    · rintro s ⟨p, a⟩ t ⟨hl, hv⟩ hstep hclean
      have hcases := step_cases hstep
      have hl' := locked_step hl hcases
      by_cases hp : (s.pc p).holds = true
      · exact ⟨hl', vigil_inside hv hl hl' hcases hp hclean⟩
      · exact ⟨hl', vigil_outside hv hl hl' hcases hp⟩
  have hblocked : ∀ k, s.pc q = .asleep k → Blocked s k.chan := by
    intro k hq
    rcases hinv.2.sleeper q k.chan (by rw [hq]; rfl) with hb | ⟨p, hp, -⟩
    · exact hb
    · rw [hlock] at hp
      cases hp
  exact ⟨fun m hq => hblocked _ hq, fun m i hq => hblocked _ hq⟩

/-- A reader goes to sleep on the empty pipe. -/
theorem sleepers_blocked_reader :
    ∃ s : State 1, (machine 1).Path Clean (.boot 0 fun _ => 0) s ∧ s.lock = none ∧
      s.pc 0 = .asleep (.read 1) ∧ s.nread = s.nwrite := by
  have hrun : ((machine 1).execBy (fun s a _ => !s.killed a.1) (.boot 0 fun _ => 0)
      [(0, .read 1), (0, .run none), (0, .run none), (0, .run none), (0, .run none)]).any
      (fun s => decide (s.lock = none ∧ s.pc 0 = .asleep (.read 1))) = true := by
    decide +kernel
  rcases (Option.any_eq_true _ _).1 hrun with ⟨s, hs, htest⟩
  rcases of_decide_eq_true htest with ⟨hlock, hasleep⟩
  have hpath : (machine 1).Path Clean (.boot 0 fun _ => 0) s := by
    refine Machine.path_of_execBy (fun s a t hok => ?_) hs
    intro m i _ _ hkilled
    rw [hkilled] at hok
    cases hok
  exact ⟨s, hpath, hlock, hasleep, ((sleepers_blocked hpath hlock 0).1 1 hasleep).1⟩

/-- Process 0 sleeps in `piperead`; process 1 puts a byte into the ring, is killed by process 2, and
leaves `pipewrite` before it has woken the reader up. -/
def forgetful : List (Fin 3 × Act 3) :=
  [(0, .dup 1 .write), (0, .read 1), (0, .run none), (0, .run none), (0, .run none), (0, .run none),
    (1, .write 2), (1, .run none), (1, .run (some 7)), (2, .kill 1), (1, .run none)]

/-- A reader sleeps on a pipe that has a byte for it. -/
theorem killed_writer_forgets_reader :
    ∃ s : State 3, (machine 3).Reaches (.boot 0 fun _ => 0) s ∧ s.lock = none ∧
      s.pc 0 = .asleep (.read 1) ∧ s.nread ≠ s.nwrite := by
  have hrun : ((machine 3).exec (.boot 0 fun _ => 0) forgetful).any
      (fun s => decide (s.lock = none ∧ s.pc 0 = .asleep (.read 1) ∧ s.nread ≠ s.nwrite))
      = true := by
    decide +kernel
  exact Machine.reaches_of_any hrun

end Xv6Schedulers.Pipe

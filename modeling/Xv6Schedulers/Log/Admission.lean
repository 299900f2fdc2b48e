import Mathlib.Algebra.BigOperators.Ring.Finset
import Xv6Schedulers.Log.Group

/-!
# Admission — room in the log, and who waits for it

`begin_op` reserves `MAXOPBLOCKS` blocks of the log for every operation it admits.  The limits that
`log_write` tests are smaller: with `sb.nlog = LOGSIZE` the last two blocks cannot be used, one for
the header and one because the test comes before the search for the block.

* `Within k`: every operation logs at most `k` different blocks;
* `Room`: the invariant behind `log_write_fits`, for operations that leave one block of their
  reservation unused;
* `reason_to_sleep`: a process sleeps in `begin_op` only while there is something to wait for.
-/

namespace Xv6Schedulers.Log
namespace Ops

open Lib Function List

variable {n : Nat}

/-- The different blocks that the operation of process `p` has logged. -/
def blocks (s : Ops n) (p : Fin n) : List BlockNo :=
  ((s.logged.filter fun e => e.op = s.op p).map (·.block)).dedup

/-- Every operation calls `log_write` on at most `k` different blocks. -/
def Within (k : Nat) : Machine.Guard (Ops n) (Fin n × Act) := fun s a _ =>
  ∀ b, a.2 = .logWrite b → (b :: s.blocks a.1).dedup.length ≤ k

/-! ## Operations of full size overflow the log -/

def within (k : Nat) (s : Ops n) (a : Fin n × Act) (_ : Ops n) : Bool :=
  match a.2 with
  | .logWrite b => (b :: s.blocks a.1).dedup.length ≤ k
  | _ => true

theorem within_iff (k : Nat) (s : Ops n) (a : Fin n × Act) (t : Ops n) :
    within k s a t = true → Within k s a t := by
  rintro h b hb
  simpa [within, hb] using h

/-- Three operations are admitted, and each logs ten blocks of its own. -/
def threeFullOps : List (Fin 3 × Act) :=
  (finRange 3).map (·, .beginOp) ++ (finRange 3).map (·, .run) ++
    (range 30).flatMap fun i =>
      let b := UInt32.ofNat (100 + i)
      let p : Fin 3 := Fin.ofNat 3 (i / 10)
      [(p, .bread b), (p, .logWrite b)]

theorem full_ops_overflow :
    ¬ ∀ s : Ops 3, (machine 3 LOGSIZE).Path (Within MAXOPBLOCKS) (boot 3) s →
      s.panicked ≠ some .tooBig := by
  intro h
  have hrun : ((machine 3 LOGSIZE).execBy (within MAXOPBLOCKS) (boot 3) threeFullOps).any
      (fun s => decide (s.panicked = some .tooBig)) = true := by
    decide +kernel
  rcases (Option.any_eq_true _ _).1 hrun with ⟨s, hs, htest⟩
  exact h s (Machine.path_of_execBy (within_iff MAXOPBLOCKS) hs) (by simpa using htest)

/-! ## Operations that leave one block unused fit -/

/-- How many more blocks the operation of a process may log. -/
def room (s : Ops n) (p : Fin n) : Int :=
  if s.pc p = .op then (MAXOPBLOCKS - 1 : Nat) - (s.blocks p).length else 0

/-- The listed blocks and those still to come stay below both limits of `log_write`. -/
structure Room (s : Ops n) : Prop where
  nonneg : ∀ p, 0 ≤ s.room p
  bound : s.lh.length + ∑ p, s.room p ≤ 28
  panics : s.panicked ≠ some .tooBig

section Room

variable {s t : Ops n} {p q : Fin n} {a : Act} {b : BlockNo}

theorem mem_blocks : b ∈ s.blocks p ↔ ∃ e ∈ s.logged, e.op = s.op p ∧ e.block = b := by
  simp [blocks, and_assoc]

theorem History.blocks_subset (h : History s) (hp : s.pc p = .op) (hb : b ∈ s.blocks p) :
    b ∈ s.lh := by
  rcases mem_blocks.1 hb with ⟨e, he, hop, rfl⟩
  have hnow := h.active p hp e he hop
  rcases h.place e he with ⟨bs, hbs, -⟩ | ⟨-, -, hmem⟩
  · have hlt := (List.getElem?_eq_some_iff.1 hbs).1
    omega
  · exact hmem

theorem sum_room_le (h : Counts s) : ∑ p, s.room p ≤ 9 * s.outstanding := by
  rw [h.count, Finset.mul_sum]
  refine Finset.sum_le_sum fun p _ => ?_
  unfold room inOp
  split
  · simp only [MAXOPBLOCKS]
    omega
  · omega

attribute [local simp] room

theorem Room.move (h : Room s) (hpc : ∀ q, t.pc q = .op → s.pc q = .op) (hop : t.op = s.op)
    (hlogged : t.logged = s.logged) (hlh : t.lh.length ≤ s.lh.length)
    (hpanic : t.panicked ≠ some .tooBig) : Room t := by
  have hroom : ∀ q, t.room q = s.room q ∨ t.room q = 0 := by
    intro q
    by_cases hq : t.pc q = .op
    · exact .inl (by simp [hq, hpc q hq, blocks, hlogged, hop])
    · exact .inr (by simp [hq])
  have hle : ∀ q, t.room q ≤ s.room q := by
    intro q
    have hpos := h.nonneg q
    rcases hroom q with hq | hq <;> omega
  refine ⟨?_, ?_, hpanic⟩
  · intro q
    have hpos := h.nonneg q
    rcases hroom q with hq | hq <;> omega
  · have hsum := Finset.sum_le_sum fun q (_ : q ∈ Finset.univ) => hle q
    have hbound := h.bound
    omega

theorem Room.enter (h : Room s) (hc : Counts s) (hh : History s) (hp : s.pc p = .begin)
    (hcommit : s.committing = false) (hroom : ¬ s.Full) (hpc : t.pc = update s.pc p .op)
    (hop : t.op = update s.op p s.ops) (hlogged : t.logged = s.logged)
    (hlh : t.lh = s.lh) (hpanic : t.panicked ≠ some .tooBig) : Room t := by
  have hnone : t.blocks p = [] := by
    refine eq_nil_iff_forall_not_mem.2 fun b hb => ?_
    rcases mem_blocks.1 hb with ⟨e, he, heq, -⟩
    rw [hlogged] at he
    have hlt := hh.ids e he
    rw [heq, hop, update_self] at hlt
    omega
  have hnew : t.room p = 9 := by
    simp [hpc, hnone, MAXOPBLOCKS]
  have hold : ∀ q, q ≠ p → t.room q = s.room q := by
    intro q hq
    simp [hpc, hop, hq, blocks, hlogged]
  have hzero : s.room p = 0 := by simp [hp]
  refine ⟨?_, ?_, hpanic⟩
  · intro q
    by_cases hq : q = p
    · rw [hq, hnew]
      decide
    · rw [hold q hq]
      exact h.nonneg q
  · have hsum := Tally.sum_of_eq_off p hold
    have hle := sum_room_le hc
    have hpos : 0 ≤ s.outstanding := by
      rw [hc.count]
      exact Finset.sum_nonneg fun q _ => s.inOp_nonneg q
    have hfit : (s.lh.length : Int) + (s.outstanding + 1) * 10 ≤ 30 := by
      simpa [Full, MAXOPBLOCKS, LOGSIZE] using hroom
    rw [hlh, hsum, hzero, hnew]
    by_cases hout : s.outstanding = 0
    · rw [hc.empty hout hcommit, length_nil]
      omega
    · omega

theorem Room.log (h : Room s) (hh : History s) (hp : s.pc p = .op)
    (hwithin : (b :: s.blocks p).dedup.length ≤ MAXOPBLOCKS - 1) (hpc : t.pc = s.pc)
    (hop : t.op = s.op) (hlogged : t.logged = ⟨s.op p, s.commits.length, b⟩ :: s.logged)
    (hlh : t.lh.length = s.lh.length ∨ (t.lh.length = s.lh.length + 1 ∧ b ∉ s.lh))
    (hpanic : t.panicked ≠ some .tooBig) : Room t := by
  have hold : ∀ q, q ≠ p → t.room q = s.room q := by
    intro q hq
    by_cases hq' : s.pc q = .op
    · have hne : s.op p ≠ s.op q := fun heq => hq (hh.unique p q hp hq' heq).symm
      simp [hpc, hq', blocks, hop, hlogged, hne]
    · simp [hpc, hq']
  have hcons : t.blocks p = (b :: s.blocks p).dedup := by
    have hlist : t.blocks p
        = (b :: (s.logged.filter fun e => e.op = s.op p).map (·.block)).dedup := by
      simp [blocks, hop, hlogged]
    rw [hlist]
    by_cases hb : b ∈ s.blocks p
    · rw [dedup_cons_of_mem hb, dedup_cons_of_mem (mem_dedup.1 hb), blocks,
        dedup_idem]
    · rw [dedup_cons_of_notMem hb, blocks, dedup_idem,
        dedup_cons_of_notMem fun hmem => hb (mem_dedup.2 hmem)]
  have hnew : t.room p = (MAXOPBLOCKS - 1 : Nat) - ((b :: s.blocks p).dedup.length : Int) := by
    simp [hpc, hp, hcons]
  have hroom : s.room p = (MAXOPBLOCKS - 1 : Nat) - ((s.blocks p).length : Int) := by
    simp [hp]
  have hnd : (s.blocks p).dedup = s.blocks p := dedup_idem
  refine ⟨?_, ?_, hpanic⟩
  · intro q
    by_cases hq : q = p
    · rw [hq, hnew]
      omega
    · rw [hold q hq]
      exact h.nonneg q
  · have hsum := Tally.sum_of_eq_off p hold
    have hbound := h.bound
    rcases hlh with hlh | ⟨hlh, hb⟩
    · have hle : (s.blocks p).length ≤ (b :: s.blocks p).dedup.length := by
        by_cases hb : b ∈ s.blocks p
        · rw [dedup_cons_of_mem hb, hnd]
        · rw [dedup_cons_of_notMem hb, hnd, length_cons]
          exact Nat.le_succ _
      omega
    · have hb' : b ∉ s.blocks p := fun hmem => hb (hh.blocks_subset hp hmem)
      rw [dedup_cons_of_notMem hb', hnd, length_cons] at hnew
      omega

theorem Room.step (h : Room s) (hc : Counts s) (hh : History s) (hrun : s.panicked = none)
    (hwithin : Within (MAXOPBLOCKS - 1) s (p, a) t) (hstep : Step LOGSIZE s p a t) : Room t := by
  have hpanic : t.panicked = s.panicked → t.panicked ≠ some .tooBig := by
    intro heq
    rw [heq, hrun]
    simp
  cases hstep with
  | call _ => exact h.move (inside_of_setPc (by simp)) rfl rfl (Nat.le_refl _) (hpanic rfl)
  | sleep _ _ => exact h.move (inside_of_setPc (by simp)) rfl rfl (Nat.le_refl _) (hpanic rfl)
  | enter hpc hcommit hroom =>
    exact h.enter hc hh hpc hcommit hroom rfl rfl rfl rfl (hpanic rfl)
  | tooBig hpc hbig =>
    have hbound := h.bound
    have hsum := Finset.sum_nonneg fun q (_ : q ∈ Finset.univ) => h.nonneg q
    simp only [LOGSIZE, MAXOPBLOCKS] at hbig
    omega
  | outside hpc hout =>
    have hpos := hc.pos hpc
    omega
  | absorb hpc hb =>
    exact h.log hh hpc (hwithin _ rfl) rfl rfl rfl (.inl rfl) (hpanic rfl)
  | append hpc hb =>
    exact h.log hh hpc (hwithin _ rfl) rfl rfl rfl (.inr ⟨by simp, hb⟩) (hpanic rfl)
  | endPanic hpc hcommit => exact absurd hpc (hc.not_op hcommit)
  | endLast _ _ _ => exact h.move (inside_of_setPc (by simp)) rfl rfl (Nat.le_refl _) (hpanic rfl)
  | endMore _ _ _ =>
    exact h.move (fun q hq => inside_of_wakeup q (inside_of_setPc (s := s.wakeup) (by simp) q hq))
      rfl rfl (Nat.le_refl _) (hpanic rfl)
  | unpin _ _ => exact h.move (inside_of_setPc (by simp)) rfl rfl (Nat.le_refl _) (hpanic rfl)
  | clear _ _ => exact h.move (inside_of_setPc (by simp)) rfl rfl (Nat.zero_le _) (hpanic rfl)
  | finish _ =>
    exact h.move (fun q hq => inside_of_wakeup q (inside_of_setPc (s := s.wakeup) (by simp) q hq))
      rfl rfl (Nat.le_refl _) (hpanic rfl)
  | kill _ => exact h.move (inside_of_setPc (by simp)) rfl rfl (Nat.le_refl _) (hpanic rfl)
  | bread b => exact h.move (fun _ hq => hq) rfl rfl (Nat.le_refl _) (hpanic rfl)
  | brelse _ => exact h.move (fun _ hq => hq) rfl rfl (Nat.le_refl _) (hpanic rfl)

theorem boot_room : Room (boot n) := ⟨by simp [boot], by simp [boot], by simp [boot]⟩

/-- With `sb.nlog = LOGSIZE`, operations of at most `MAXOPBLOCKS - 1` blocks never overflow the
log, whatever their interleaving and however often they log a block again. -/
theorem log_write_fits (h : (machine n LOGSIZE).Path (Within (MAXOPBLOCKS - 1)) (boot n) s) :
    s.panicked ≠ some .tooBig := by
  have hinv : (Counts s ∧ History s) ∧ Room s := by
    refine Machine.Path.invariant (I := fun s => (Counts s ∧ History s) ∧ Room s) h
      ⟨⟨boot_counts, boot_history⟩, boot_room⟩ ?_
    · rintro s ⟨p, a⟩ t ⟨⟨hc, hh⟩, hr⟩ hstep hwithin
      rcases step_cases hstep with ⟨hrun, hs⟩
      exact ⟨⟨hc.step hs, hh.step hc hs⟩, hr.step hc hh hrun hwithin hs⟩
  exact hinv.2.panics

/-- An operation that logs the same block twice. -/
theorem log_write_fits_twice :
    ∃ s : Ops 1, (machine 1 LOGSIZE).Path (Within (MAXOPBLOCKS - 1)) (boot 1) s ∧
      s.logged.length = 2 ∧ s.panicked ≠ some .tooBig := by
  have hrun : ((machine 1 LOGSIZE).execBy (within (MAXOPBLOCKS - 1)) (boot 1)
      [(0, .beginOp), (0, .run), (0, .bread 50), (0, .logWrite 50), (0, .logWrite 50)]).any
      (fun s => decide (s.logged.length = 2)) = true := by
    decide +kernel
  rcases (Option.any_eq_true _ _).1 hrun with ⟨s, hs, htest⟩
  have hpath := Machine.path_of_execBy (within_iff (MAXOPBLOCKS - 1)) hs
  exact ⟨s, hpath, by simpa using htest, log_write_fits hpath⟩

end Room

/-! ## Sleeping in `begin_op` -/

/-- Whoever sleeps has a reason to. -/
def Sleeps (s : Ops n) : Prop := ∀ p, s.pc p = .asleep → s.committing = true ∨ s.Full

section Sleeps

variable {size : Int} {s t : Ops n} {p : Fin n} {a : Act}

theorem Sleeps.keep (h : Sleeps s) (hpc : ∀ q, t.pc q = .asleep → s.pc q = .asleep)
    (hcommit : s.committing = true → t.committing = true) (hfull : s.Full → t.Full) : Sleeps t := by
  intro q hq
  rcases h q (hpc q hq) with hc | hf
  · exact .inl (hcommit hc)
  · exact .inr (hfull hf)

theorem setPc_asleep {v : OpPc} (hv : v ≠ .asleep) (q : Fin n)
    (hq : update s.pc p v q = .asleep) : s.pc q = .asleep := by
  by_cases hqp : q = p
  · exact absurd (by simpa [hqp] using hq) hv
  · simpa [hqp] using hq

theorem Sleeps.of_wakeup (hpc : t.pc = update s.wakeup.pc p .idle) : Sleeps t := by
  intro q hq
  exfalso
  rw [hpc] at hq
  have hq' := setPc_asleep (s := s.wakeup) (by simp) q hq
  by_cases hsleep : s.pc q = .asleep
  · simp [hsleep] at hq'
  · simp [hsleep] at hq'

theorem Sleeps.step (h : Sleeps s) (hc : Counts s) (hstep : Step size s p a t) : Sleeps t := by
  cases hstep with
  | call _ => exact h.keep (setPc_asleep (by simp)) id id
  | sleep _ hwhy =>
    intro q _
    exact hwhy
  | enter _ hcommit hroom =>
    intro q hq
    rcases h q (setPc_asleep (by simp) q hq) with htrue | hfull
    · exact .inl htrue
    · exact absurd hfull hroom
  | tooBig _ _ => exact h.keep (fun _ hq => hq) id id
  | outside _ _ => exact h.keep (fun _ hq => hq) id id
  | absorb _ _ => exact h.keep (fun _ hq => hq) id id
  | append _ _ =>
    refine h.keep (fun _ hq => hq) id fun hfull => ?_
    -- the list only grows within an operation
    simp only [Full, gt_iff_lt, length_append, length_singleton] at hfull ⊢
    omega
  | endPanic hpc hcommit => exact absurd hpc (hc.not_op hcommit)
  | endLast _ _ _ => exact fun _ _ => .inl rfl
  | endMore _ _ _ => exact .of_wakeup rfl
  | unpin _ _ => exact h.keep (setPc_asleep (by simp)) id id
  | clear hpc _ => exact fun _ _ => .inl (hc.committing.2 ⟨p, by rw [hpc]; rfl⟩)
  | finish _ => exact .of_wakeup rfl
  | kill _ => exact h.keep (setPc_asleep (by simp)) id id
  | bread b => exact h.keep (fun _ hq => hq) id id
  | brelse _ => exact h.keep (fun _ hq => hq) id id

/-- No process sleeps in `begin_op` without reason, and as long as one sleeps a wakeup is still to
come: from the end of an operation or of a commit. -/
theorem reason_to_sleep (h : Reachable size s) (hp : s.pc p = .asleep) : (s.committing = true ∨
      s.lh.length + (s.outstanding + 1) * MAXOPBLOCKS > LOGSIZE) ∧
    (0 < s.outstanding ∨ s.committing = true) := by
  have hinv : Counts s ∧ Sleeps s := by
    refine Machine.Reaches.invariant (I := fun s => Counts s ∧ Sleeps s) h
      ⟨boot_counts, fun q hq => by cases hq⟩ ?_
    rintro s ⟨p, a⟩ t ⟨hc, hsleep⟩ hstep
    rcases step_cases hstep with ⟨-, hs⟩
    exact ⟨hc.step hs, hsleep.step hc hs⟩
  rcases hinv with ⟨hc, hsleep⟩
  refine ⟨hsleep p hp, ?_⟩
  cases hcommit : s.committing with
  | true => exact .inr rfl
  | false =>
    refine .inl ?_
    have hpos : 0 ≤ s.outstanding := by
      rw [hc.count]
      exact Finset.sum_nonneg fun q _ => s.inOp_nonneg q
    rcases hsleep p hp with htrue | hfull
    · rw [hcommit] at htrue
      cases htrue
    · by_contra hnot
      have hzero : s.outstanding = 0 := by omega
      rw [Full, hc.empty hzero hcommit, hzero] at hfull
      exact absurd hfull (by decide)

/-- Three operations are in progress; a fourth process sleeps. -/
theorem reason_to_sleep_fourth :
    ∃ s : Ops 4, Reachable 30 s ∧ s.pc 3 = .asleep ∧ (0 < s.outstanding ∨ s.committing = true) := by
  have hrun : ((machine 4 30).exec (boot 4)
      ((finRange 4).map (·, .beginOp) ++ (finRange 4).map (·, .run))).any
      (fun s => decide (s.pc 3 = .asleep)) = true := by
    decide +kernel
  rcases (Option.any_eq_true _ _).1 hrun with ⟨s, hs, htest⟩
  have hreach : Reachable 30 s := Machine.reaches_of_exec hs
  have hsleep : s.pc 3 = .asleep := by simpa using htest
  exact ⟨s, hreach, hsleep, (reason_to_sleep hreach hsleep).2⟩

end Sleeps

end Ops
end Xv6Schedulers.Log

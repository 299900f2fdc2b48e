import Mathlib.Algebra.Order.BigOperators.Group.Finset
import Xv6Schedulers.Lib.Tally
import Xv6Schedulers.Log.Ops

/-!
# Group — a commit never splits an operation

Three invariants of the machine of `Ops.lean`:

* `Counts`: `outstanding` is the number of processes inside an operation, and a process runs
  `commit` only while it is 0;
* `Pins`: outside `commit` exactly the listed blocks are pinned, each once;
* `History`: the blocks of an operation all belong to the same commit.
-/

namespace Xv6Schedulers.Log

open Lib Function List

/-- The process is in `commit`, or in `end_op` after it. -/
def OpPc.commits : OpPc → Bool
  | .commit _ | .finish => true
  | _ => false

@[simp] theorem commits_idle : OpPc.idle.commits = false := rfl
@[simp] theorem commits_begin : OpPc.begin.commits = false := rfl
@[simp] theorem commits_asleep : OpPc.asleep.commits = false := rfl
@[simp] theorem commits_op : OpPc.op.commits = false := rfl
@[simp] theorem commits_commit (tail : Nat) : (OpPc.commit tail).commits = true := rfl
@[simp] theorem commits_finish : OpPc.finish.commits = true := rfl

namespace Ops

variable {n : Nat}

/-- The contribution of a process to `outstanding`. -/
def inOp (s : Ops n) (p : Fin n) : Int := if s.pc p = .op then 1 else 0

/-! ## Operations in progress -/

/-- `outstanding`, `committing` and where the processes are. -/
structure Counts (s : Ops n) : Prop where
  count : s.outstanding = ∑ p, s.inOp p
  committing : s.committing = true ↔ ∃ p, (s.pc p).commits = true
  owner : ∀ p q, (s.pc p).commits = true → (s.pc q).commits = true → p = q
  quiet : s.committing = true → s.outstanding = 0
  empty : s.outstanding = 0 → s.committing = false → s.lh = []
  done : ∀ p, s.pc p = .finish → s.lh = []
  panics : s.panicked = none ∨ s.panicked = some .tooBig

attribute [local simp] inOp

section Counts

variable {size : Int} {s t : Ops n} {p q : Fin n} {a : Act}

theorem inOp_nonneg (s : Ops n) (p : Fin n) : 0 ≤ s.inOp p := by
  unfold inOp
  split <;> decide

theorem inOp_setPc_of_ne (h : q ≠ p) (v : OpPc) : (s.setPc p v).inOp q = s.inOp q := by
  simp [h]

theorem inOp_wakeup : s.wakeup.inOp q = s.inOp q := by
  by_cases hq : s.pc q = .asleep <;> simp [hq]

variable (h : Counts s)
include h

theorem Counts.pos (hp : s.pc p = .op) : 1 ≤ s.outstanding := by
  have hle := Finset.single_le_sum (fun q _ => s.inOp_nonneg q) (Finset.mem_univ p)
  rw [← h.count, inOp, if_pos hp] at hle
  exact hle

theorem Counts.not_op (hc : s.committing = true) : s.pc p ≠ .op := by
  intro hp
  have hpos := h.pos hp
  rw [h.quiet hc] at hpos
  exact absurd hpos (by decide)

theorem Counts.not_commits (hc : s.committing = false) : (s.pc p).commits = false := by
  by_contra hp
  have htrue := h.committing.2 ⟨p, by simpa using hp⟩
  rw [hc] at htrue
  cases htrue

theorem count_of_eq_off (hpc : ∀ q, q ≠ p → t.inOp q = s.inOp q) :
    ∑ q, t.inOp q = s.outstanding - s.inOp p + t.inOp p := by
  rw [h.count]
  exact Tally.sum_of_eq_off p hpc

theorem Counts.move {v : OpPc} (hs : s.pc p ≠ .op ∧ (s.pc p).commits = false)
    (hv : v ≠ .op ∧ v.commits = false) : Counts (s.setPc p v) := by
  have hcommits : ∀ q, ((s.setPc p v).pc q).commits = (s.pc q).commits := by
    intro q
    by_cases hq : q = p
    · simp [hq, hs.2, hv.2]
    · simp [hq]
  refine ⟨?_, ?_, ?_, h.quiet, h.empty, ?_, h.panics⟩
  · rw [count_of_eq_off h fun q hq => inOp_setPc_of_ne hq v]
    simp [hs.1, hv.1]
  · simp only [hcommits]
    exact h.committing
  · simp only [hcommits]
    exact h.owner
  · intro q hq
    refine h.done q ?_
    by_cases hqp : q = p
    · have hfin : v = .finish := by simpa [hqp] using hq
      simp [hfin] at hv
    · simpa [hqp] using hq

theorem Counts.wakeup : Counts s.wakeup := by
  have hcommits : ∀ q, (s.wakeup.pc q).commits = (s.pc q).commits := by
    intro q
    by_cases hq : s.pc q = .asleep <;> simp [hq]
  refine ⟨?_, ?_, ?_, h.quiet, h.empty, ?_, h.panics⟩
  · simp only [inOp_wakeup]
    exact h.count
  · simp only [hcommits]
    exact h.committing
  · simp only [hcommits]
    exact h.owner
  · intro q hq
    refine h.done q ?_
    by_cases hsleep : s.pc q = .asleep
    · simp [hsleep] at hq
    · simpa [hsleep] using hq

theorem Counts.log (hp : s.pc p = .op) (hpc : t.pc = s.pc)
    (hout : t.outstanding = s.outstanding) (hcommit : t.committing = s.committing)
    (hpanic : t.panicked = s.panicked) : Counts t := by
  have hin : t.inOp = s.inOp := by
    funext q
    simp [hpc]
  have hpos := h.pos hp
  refine ⟨by rw [hout, hin, h.count], by rw [hcommit, hpc, h.committing], by rw [hpc]; exact h.owner,
    by rw [hcommit, hout]; exact h.quiet, ?_, ?_, by rw [hpanic]; exact h.panics⟩
  · intro hzero
    omega
  · intro q hq
    rw [hpc] at hq
    have hc : s.committing = true := h.committing.2 ⟨q, by simp [hq]⟩
    exact absurd hp (h.not_op hc)

theorem Counts.enter (hp : s.pc p = .begin) (hcommit : s.committing = false)
    (hpc : t.pc = update s.pc p .op) (hout : t.outstanding = s.outstanding + 1)
    (hcommit' : t.committing = s.committing) (hpanic : t.panicked = s.panicked) : Counts t := by
  have hpos : 0 ≤ s.outstanding := by
    rw [h.count]
    exact Finset.sum_nonneg fun q _ => s.inOp_nonneg q
  have hnone' : ∀ q, (t.pc q).commits = false := by
    intro q
    by_cases hq : q = p
    · simp [hpc, hq]
    · simpa [hpc, hq] using h.not_commits hcommit (p := q)
  refine ⟨?_, ?_, ?_, ?_, ?_, ?_, by rw [hpanic]; exact h.panics⟩
  · rw [count_of_eq_off (p := p) h fun q hq => by simp [hpc, hq], hout]
    simp [hp, hpc]
  · rw [hcommit', hcommit]
    simp [hnone']
  · intro q r hq
    rw [hnone' q] at hq
    cases hq
  · rw [hcommit', hcommit]
    intro hc
    cases hc
  · intro hzero
    omega
  · intro q hq
    have hq' := hnone' q
    simp [hq] at hq'

theorem Counts.endLast (hp : s.pc p = .op) (hcommit : s.committing = false)
    (hlast : s.outstanding - 1 = 0) (hpc : t.pc = update s.pc p (.commit 0))
    (hout : t.outstanding = s.outstanding - 1) (hcommit' : t.committing = true)
    (hpanic : t.panicked = s.panicked) : Counts t := by
  have hother : ∀ q, q ≠ p → (t.pc q).commits = false := by
    intro q hq
    simpa [hpc, hq] using h.not_commits hcommit (p := q)
  have howner : ∀ q, (t.pc q).commits = true → q = p := by
    intro q hq
    by_contra hne
    rw [hother q hne] at hq
    cases hq
  refine ⟨?_, ?_, ?_, ?_, ?_, ?_, by rw [hpanic]; exact h.panics⟩
  · rw [count_of_eq_off (p := p) h fun q hq => by simp [hpc, hq], hout]
    simp [hp, hpc]
  · rw [hcommit']
    exact ⟨fun _ => ⟨p, by simp [hpc]⟩, fun _ => rfl⟩
  · intro q r hq hr
    rw [howner q hq, howner r hr]
  · intro _
    rw [hout, hlast]
  · intro _ hc
    rw [hcommit'] at hc
    cases hc
  · intro q hq
    have hqp := howner q (by simp [hq])
    simp [hqp, hpc] at hq

theorem Counts.endMore (hp : s.pc p = .op) (hcommit : s.committing = false)
    (hmore : s.outstanding - 1 ≠ 0) (hpc : t.pc = update s.wakeup.pc p .idle)
    (hout : t.outstanding = s.outstanding - 1) (hcommit' : t.committing = s.committing)
    (hpanic : t.panicked = s.panicked) : Counts t := by
  have hnone : ∀ q, (t.pc q).commits = false := by
    intro q
    by_cases hq : q = p
    · simp [hpc, hq]
    · simpa [hpc, hq] using h.wakeup.not_commits hcommit (p := q)
  refine ⟨?_, ?_, ?_, ?_, ?_, ?_, by rw [hpanic]; exact h.panics⟩
  · have hoff : ∀ q, q ≠ p → t.inOp q = s.inOp q := by
      intro q hq
      calc
        t.inOp q = s.wakeup.inOp q := by simp [hpc, hq]
        _ = s.inOp q := inOp_wakeup
    rw [count_of_eq_off h hoff, hout]
    simp [hp, hpc]
  · rw [hcommit', hcommit]
    simp [hnone]
  · intro q r hq
    rw [hnone q] at hq
    cases hq
  · rw [hcommit', hcommit]
    intro hc
    cases hc
  · intro hzero
    rw [hout] at hzero
    exact absurd hzero hmore
  · intro q hq
    have hq' := hnone q
    simp [hq] at hq'

theorem Counts.commitRound {v : OpPc} (hp : (s.pc p).commits = true)
    (hv : v.commits = true) (hdone : v = .finish → t.lh = [])
    (hpc : t.pc = update s.pc p v) (hout : t.outstanding = s.outstanding)
    (hcommit : t.committing = s.committing) (hpanic : t.panicked = s.panicked) : Counts t := by
  have htrue : s.committing = true := h.committing.2 ⟨p, hp⟩
  have hcommits : ∀ q, (t.pc q).commits = (s.pc q).commits := by
    intro q
    by_cases hq : q = p
    · simp [hpc, hq, hp, hv]
    · simp [hpc, hq]
  refine ⟨?_, ?_, ?_, ?_, ?_, ?_, by rw [hpanic]; exact h.panics⟩
  · have hne : s.pc p ≠ .op := h.not_op htrue
    have hvne : v ≠ .op := by
      rintro rfl
      cases hv
    rw [count_of_eq_off (p := p) h fun q hq => by simp [hpc, hq], hout]
    simp [hne, hvne, hpc]
  · simp only [hcommit, hcommits]
    exact h.committing
  · simp only [hcommits]
    exact h.owner
  · rw [hcommit, hout]
    exact h.quiet
  · rw [hcommit, htrue]
    intro _ hc
    cases hc
  · intro q hq
    have hqp : q = p := h.owner q p (by rw [← hcommits, hq]; rfl) hp
    refine hdone ?_
    simpa [hqp, hpc] using hq

theorem Counts.finish (hp : s.pc p = .finish) (hlh : t.lh = s.lh)
    (hpc : t.pc = update s.wakeup.pc p .idle) (hout : t.outstanding = s.outstanding)
    (hcommit : t.committing = false) (hpanic : t.panicked = s.panicked) : Counts t := by
  have hnone : ∀ q, (t.pc q).commits = false := by
    intro q
    by_cases hq : q = p
    · simp [hpc, hq]
    · by_contra hc
      have hc' : (s.wakeup.pc q).commits = true := by simpa [hpc, hq] using hc
      exact hq (h.wakeup.owner q p hc' (by simp [hp]))
  refine ⟨?_, ?_, ?_, ?_, ?_, ?_, by rw [hpanic]; exact h.panics⟩
  · have hoff : ∀ q, q ≠ p → t.inOp q = s.inOp q := by
      intro q hq
      calc
        t.inOp q = s.wakeup.inOp q := by simp [hpc, hq]
        _ = s.inOp q := inOp_wakeup
    rw [count_of_eq_off h hoff, hout]
    simp [hp, hpc]
  · simp [hcommit, hnone]
  · intro q r hq
    rw [hnone q] at hq
    cases hq
  · rw [hcommit]
    intro hc
    cases hc
  · intro _ _
    rw [hlh, h.done p hp]
  · intro q hq
    have hq' := hnone q
    simp [hq] at hq'

theorem Counts.step (hstep : Step size s p a t) : Counts t := by
  cases hstep with
  | call hpc => exact h.move (by simp [hpc]) (by simp)
  | sleep hpc _ => exact h.move (by simp [hpc]) (by simp)
  | enter hpc hcommit _ => exact h.enter hpc hcommit rfl rfl rfl rfl
  | tooBig hpc _ => exact { h with panics := .inr rfl }
  | outside hpc hout =>
    have hpos := h.pos hpc
    omega
  | absorb hpc _ => exact h.log hpc rfl rfl rfl rfl
  | append hpc _ => exact h.log hpc rfl rfl rfl rfl
  | endPanic hpc hcommit => exact absurd hpc (h.not_op hcommit)
  | endLast hpc hcommit hlast => exact h.endLast hpc hcommit hlast rfl rfl rfl rfl
  | endMore hpc hcommit hmore => exact h.endMore hpc hcommit hmore rfl rfl rfl rfl
  | @unpin tail b hpc _ =>
    exact h.commitRound (v := .commit (tail + 1)) (by rw [hpc]; rfl) rfl (by simp) rfl rfl rfl rfl
  | clear hpc _ =>
    exact h.commitRound (v := .finish) (by rw [hpc]; rfl) rfl (fun _ => rfl) rfl rfl rfl rfl
  | finish hpc => exact h.finish hpc rfl rfl rfl rfl rfl
  | kill hpc => exact h.move (by simp [hpc]) (by simp)
  | bread b => exact { h with }
  | brelse _ => exact { h with }

end Counts

/-! ## Pins -/

/-- The reference counts: `gets`, and one for each block that is pinned. -/
structure Pins (s : Ops n) : Prop where
  nodup : s.lh.Nodup
  outside : (∀ p tail, s.pc p ≠ .commit tail) →
    ∀ b, s.refcnt b = s.gets b + if b ∈ s.lh then 1 else 0
  inside : ∀ p tail, s.pc p = .commit tail →
    ∀ b, s.refcnt b = s.gets b + if b ∈ s.lh.drop tail then 1 else 0

section Pins

variable {size : Int} {s t : Ops n} {p : Fin n} {a : Act}

theorem Pins.move (h : Pins s) (hpc : ∀ q tail, t.pc q = .commit tail ↔ s.pc q = .commit tail)
    (hlh : t.lh = s.lh) (hpins : ∀ b, t.refcnt b - t.gets b = s.refcnt b - s.gets b) : Pins t := by
  refine ⟨by rw [hlh]; exact h.nodup, ?_, ?_⟩
  · intro hnone b
    have hb := h.outside (fun q tail hq => hnone q tail ((hpc q tail).2 hq)) b
    have hb' := hpins b
    rw [hlh]
    omega
  · intro q tail hq b
    have hb := h.inside q tail ((hpc q tail).1 hq) b
    have hb' := hpins b
    rw [hlh]
    omega

theorem setPc_commit_iff {v : OpPc} (hs : ∀ tail, s.pc p ≠ .commit tail)
    (hv : ∀ tail, v ≠ .commit tail) (q : Fin n) (tail : Nat) :
    update s.pc p v q = .commit tail ↔ s.pc q = .commit tail := by
  by_cases hq : q = p
  · simp [hq, hs tail, hv tail]
  · simp [hq]

theorem wakeup_commit_iff (q : Fin n) (tail : Nat) :
    s.wakeup.pc q = .commit tail ↔ s.pc q = .commit tail := by
  by_cases hq : s.pc q = .asleep <;> simp [hq]

theorem Counts.not_commit (h : Counts s) (hc : s.committing = false) (q : Fin n) (tail : Nat) :
    s.pc q ≠ .commit tail := by
  intro hq
  have hfalse := h.not_commits hc (p := q)
  rw [hq] at hfalse
  cases hfalse

theorem Pins.step (h : Pins s) (hc : Counts s) (hstep : Step size s p a t) : Pins t := by
  have hop : s.pc p = .op → s.committing = false := by
    intro hp
    by_contra htrue
    exact hc.not_op (by simpa using htrue) hp
  cases hstep with
  | call hpc => exact h.move (setPc_commit_iff (by simp [hpc]) (by simp)) rfl fun _ => rfl
  | sleep hpc _ => exact h.move (setPc_commit_iff (by simp [hpc]) (by simp)) rfl fun _ => rfl
  | enter hpc _ _ => exact h.move (setPc_commit_iff (by simp [hpc]) (by simp)) rfl fun _ => rfl
  | tooBig _ _ => exact h.move (fun _ _ => Iff.rfl) rfl fun _ => rfl
  | outside _ _ => exact h.move (fun _ _ => Iff.rfl) rfl fun _ => rfl
  | absorb _ _ => exact h.move (fun _ _ => Iff.rfl) rfl fun _ => rfl
  | @append b hpc hb =>
    have hnone := hc.not_commit (hop hpc)
    refine ⟨?_, fun _ x => ?_, fun q tail hq => absurd hq (hnone q tail)⟩
    · exact nodup_append.2 ⟨h.nodup, by simp, by
        intro x hx y hy
        rw [mem_singleton.1 hy]
        rintro rfl
        exact hb hx⟩
    · have hx := h.outside hnone x
      by_cases hxb : x = b
      · subst hxb
        simp [hb] at hx
        simp [hx]
      · simpa [hxb] using hx
  | endPanic _ _ => exact h.move (fun _ _ => Iff.rfl) rfl fun _ => rfl
  | endLast hpc hcommit _ =>
    have hnone := hc.not_commit hcommit
    refine ⟨h.nodup, fun hno => absurd (update_self p _ _) (hno p 0), ?_⟩
    intro q tail hq b
    by_cases hqp : q = p
    · have htail : tail = 0 := by simpa [hqp, eq_comm] using hq
      rw [htail]
      exact h.outside hnone b
    · exact absurd (by simpa [hqp] using hq) (hnone q tail)
  | endMore hpc _ _ =>
    have hmove := setPc_commit_iff (s := s.wakeup) (p := p) (v := .idle) (by simp [hpc]) (by simp)
    exact h.move (fun q tail => (hmove q tail).trans (wakeup_commit_iff q tail)) rfl fun _ => rfl
  | @unpin tail b hpc hb =>
    rcases List.getElem?_eq_some_iff.1 hb with ⟨hlt, rfl⟩
    have hdrop := drop_eq_getElem_cons hlt
    have hnd := h.nodup.sublist (drop_sublist tail s.lh)
    rw [hdrop, nodup_cons] at hnd
    refine ⟨h.nodup, fun hno => absurd (update_self p _ _) (hno p (tail + 1)), ?_⟩
    intro q tail' hq x
    have hqp : q = p := by
      by_contra hne
      have hqs : s.pc q = .commit tail' := by simpa [hne] using hq
      exact hne (hc.owner q p (by rw [hqs]; rfl) (by rw [hpc]; rfl))
    have htail : tail' = tail + 1 := by simpa [hqp, eq_comm] using hq
    have hx := h.inside p tail hpc x
    rw [hdrop] at hx
    rw [htail]
    by_cases hxb : x = s.lh[tail]
    · rw [hxb] at hx ⊢
      simp only [mem_cons, true_or, if_true] at hx
      simp [hnd.1, hx]
    · simp only [mem_cons, hxb, false_or] at hx
      simpa [hxb] using hx
  | @clear tail hpc hb =>
    have hlen : s.lh.length ≤ tail := getElem?_eq_none_iff.1 hb
    have hnone : ∀ q tail', update s.pc p .finish q ≠ .commit tail' := by
      intro q tail' hq
      by_cases hqp : q = p
      · simp [hqp] at hq
      · have hqs : s.pc q = .commit tail' := by simpa [hqp] using hq
        exact hqp (hc.owner q p (by rw [hqs]; rfl) (by rw [hpc]; rfl))
    refine ⟨nodup_nil, fun _ x => ?_, fun q tail' hq => absurd hq (hnone q tail')⟩
    have hx := h.inside p tail hpc x
    rw [drop_of_length_le hlen] at hx
    exact hx
  | finish hpc =>
    have hmove := setPc_commit_iff (s := s.wakeup) (p := p) (v := .idle) (by simp [hpc]) (by simp)
    exact h.move (fun q tail => (hmove q tail).trans (wakeup_commit_iff q tail)) rfl fun _ => rfl
  | kill hpc => exact h.move (setPc_commit_iff (by simp [hpc]) (by simp)) rfl fun _ => rfl
  | bread b =>
    refine h.move (fun _ _ => Iff.rfl) rfl fun x => ?_
    by_cases hx : x = b
    · simp [hx]
    · simp [hx]
  | @brelse b _ =>
    refine h.move (fun _ _ => Iff.rfl) rfl fun x => ?_
    by_cases hx : x = b
    · simp [hx]
    · simp [hx]

end Pins

/-! ## What each commit contains -/

/-- Every block that was logged belongs to the current transaction or to the commit it was logged
for, and an operation logs for one commit only. -/
structure History (s : Ops n) : Prop where
  ids : ∀ e ∈ s.logged, e.op < s.ops
  own : ∀ p, s.pc p = .op → s.op p < s.ops
  unique : ∀ p q, s.pc p = .op → s.pc q = .op → s.op p = s.op q → p = q
  active : ∀ p, s.pc p = .op → ∀ e ∈ s.logged, e.op = s.op p → e.commit = s.commits.length
  place : ∀ e ∈ s.logged, (∃ bs, s.commits[e.commit]? = some bs ∧ e.block ∈ bs) ∨
    (s.committing = false ∧ e.commit = s.commits.length ∧ e.block ∈ s.lh)
  same : ∀ e ∈ s.logged, ∀ f ∈ s.logged, e.op = f.op → e.commit = f.commit

section History

variable {size : Int} {s t : Ops n} {p : Fin n} {a : Act}

/-- A step that neither logs a block nor begins an operation nor changes the current transaction. -/
theorem History.move (h : History s) (hpc : ∀ q, t.pc q = .op → s.pc q = .op) (hlh : t.lh = s.lh)
    (hop : t.op = s.op) (hops : t.ops = s.ops) (hlogged : t.logged = s.logged)
    (hcommits : t.commits = s.commits) (hcommitting : s.committing = false → t.committing = false) :
    History t := by
  refine ⟨?_, ?_, ?_, ?_, ?_, ?_⟩
  · rw [hlogged, hops]
    exact h.ids
  · rw [hop, hops]
    exact fun q hq => h.own q (hpc q hq)
  · rw [hop]
    exact fun q r hq hr => h.unique q r (hpc q hq) (hpc r hr)
  · rw [hlogged, hop, hcommits]
    exact fun q hq => h.active q (hpc q hq)
  · rw [hlogged, hcommits, hlh]
    intro e he
    rcases h.place e he with hpast | ⟨hc, hnow⟩
    · exact .inl hpast
    · exact .inr ⟨hcommitting hc, hnow⟩
  · rw [hlogged]
    exact h.same

theorem inside_of_setPc {v : OpPc} (hv : v ≠ .op) (q : Fin n) (hq : update s.pc p v q = .op) :
    s.pc q = .op := by
  by_cases hqp : q = p
  · exact absurd (by simpa [hqp] using hq) hv
  · simpa [hqp] using hq

theorem inside_of_wakeup (q : Fin n) (hq : s.wakeup.pc q = .op) : s.pc q = .op := by
  by_cases hsleep : s.pc q = .asleep
  · simp [hsleep] at hq
  · simpa [hsleep] using hq

theorem History.log {b : BlockNo} (h : History s) (hp : s.pc p = .op) (hcommit : s.committing = false)
    (hlh : ∀ x, x ∈ s.lh ∨ x = b → x ∈ t.lh) (hpc : t.pc = s.pc) (hop : t.op = s.op)
    (hops : t.ops = s.ops) (hlogged : t.logged = ⟨s.op p, s.commits.length, b⟩ :: s.logged)
    (hcommits : t.commits = s.commits) (hcommit' : t.committing = s.committing) : History t := by
  refine ⟨?_, ?_, ?_, ?_, ?_, ?_⟩
  · rw [hlogged, hops, forall_mem_cons]
    exact ⟨h.own p hp, h.ids⟩
  · rw [hop, hops, hpc]
    exact h.own
  · rw [hop, hpc]
    exact h.unique
  · rw [hlogged, hop, hcommits, hpc]
    intro q hq
    rw [forall_mem_cons]
    exact ⟨fun _ => rfl, h.active q hq⟩
  · rw [hlogged, hcommits, hcommit', forall_mem_cons]
    refine ⟨.inr ⟨hcommit, rfl, hlh b (.inr rfl)⟩, fun e he => ?_⟩
    rcases h.place e he with hpast | ⟨hc, hnow, hmem⟩
    · exact .inl hpast
    · exact .inr ⟨hc, hnow, hlh _ (.inl hmem)⟩
  · rw [hlogged]
    intro e he f hf hef
    rcases mem_cons.1 he with rfl | he
    · rcases mem_cons.1 hf with rfl | hf
      · rfl
      · exact (h.active p hp f hf hef.symm).symm
    · rcases mem_cons.1 hf with rfl | hf
      · exact h.active p hp e he hef
      · exact h.same e he f hf hef

theorem History.enter (h : History s) (hpc : t.pc = update s.pc p .op)
    (hlh : t.lh = s.lh) (hop : t.op = update s.op p s.ops) (hops : t.ops = s.ops + 1)
    (hlogged : t.logged = s.logged) (hcommits : t.commits = s.commits)
    (hcommit : t.committing = s.committing) : History t := by
  have hold : ∀ q, q ≠ p → t.pc q = .op → s.pc q = .op := by
    intro q hq hop'
    simpa [hpc, hq] using hop'
  have hnew : t.op p = s.ops := by simp [hop]
  have hkeep : ∀ q, q ≠ p → t.op q = s.op q := by
    intro q hq
    simp [hop, hq]
  refine ⟨?_, ?_, ?_, ?_, ?_, ?_⟩
  · rw [hlogged, hops]
    exact fun e he => Nat.lt_succ_of_lt (h.ids e he)
  · intro q hq
    rw [hops]
    by_cases hqp : q = p
    · rw [hqp, hnew]
      exact Nat.lt_succ_self _
    · rw [hkeep q hqp]
      exact Nat.lt_succ_of_lt (h.own q (hold q hqp hq))
  · intro q r hq hr heq
    by_cases hqp : q = p <;> by_cases hrp : r = p
    · rw [hqp, hrp]
    · rw [hqp, hnew, hkeep r hrp] at heq
      have hlt := h.own r (hold r hrp hr)
      omega
    · rw [hrp, hnew, hkeep q hqp] at heq
      have hlt := h.own q (hold q hqp hq)
      omega
    · rw [hkeep q hqp, hkeep r hrp] at heq
      exact h.unique q r (hold q hqp hq) (hold r hrp hr) heq
  · rw [hlogged, hcommits]
    intro q hq e he heq
    by_cases hqp : q = p
    · -- the operation has logged nothing yet
      rw [hqp, hnew] at heq
      have hlt := h.ids e he
      omega
    · rw [hkeep q hqp] at heq
      exact h.active q (hold q hqp hq) e he heq
  · rw [hlogged, hcommits, hlh, hcommit]
    exact h.place
  · rw [hlogged]
    exact h.same

theorem History.commit (h : History s) (hnone : ∀ q, t.pc q ≠ .op) (hops : t.ops = s.ops) (hlogged : t.logged = s.logged)
    (hcommits : t.commits = s.commits ++ [s.lh]) : History t := by
  refine ⟨?_, fun q hq => absurd hq (hnone q), fun q _ hq => absurd hq (hnone q),
    fun q hq => absurd hq (hnone q), ?_, ?_⟩
  · rw [hlogged, hops]
    exact h.ids
  · rw [hlogged, hcommits]
    intro e he
    rcases h.place e he with ⟨bs, hbs, hmem⟩ | ⟨-, hnow, hmem⟩
    · have hlt := (List.getElem?_eq_some_iff.1 hbs).1
      exact .inl ⟨bs, by rw [getElem?_append_left hlt, hbs], hmem⟩
    · exact .inl ⟨s.lh, by simp [hnow], hmem⟩
  · rw [hlogged]
    exact h.same

theorem History.step (h : History s) (hc : Counts s) (hstep : Step size s p a t) : History t := by
  have hop : s.pc p = .op → s.committing = false := by
    intro hp
    by_contra htrue
    exact hc.not_op (by simpa using htrue) hp
  cases hstep with
  | call hpc => exact h.move (inside_of_setPc (by simp)) rfl rfl rfl rfl rfl fun hc => hc
  | sleep hpc _ => exact h.move (inside_of_setPc (by simp)) rfl rfl rfl rfl rfl fun hc => hc
  | enter hpc _ _ => exact h.enter rfl rfl rfl rfl rfl rfl rfl
  | tooBig _ _ => exact h.move (fun _ hq => hq) rfl rfl rfl rfl rfl fun hc => hc
  | outside _ _ => exact h.move (fun _ hq => hq) rfl rfl rfl rfl rfl fun hc => hc
  | absorb hpc hb =>
    refine h.log hpc (hop hpc) (fun x hx => ?_) rfl rfl rfl rfl rfl rfl
    rcases hx with hx | rfl
    · exact hx
    · exact hb
  | append hpc _ =>
    exact h.log hpc (hop hpc) (fun x hx => by simpa using hx) rfl rfl rfl rfl rfl rfl
  | endPanic _ _ => exact h.move (fun _ hq => hq) rfl rfl rfl rfl rfl fun hc => hc
  | endLast hpc hcommit hlast =>
    have hc' := hc.endLast (t := { s.setPc p (.commit 0) with
      outstanding := s.outstanding - 1
      committing := true
      commits := s.commits ++ [s.lh] }) hpc hcommit hlast rfl rfl rfl rfl
    exact h.commit (fun q => hc'.not_op rfl) rfl rfl rfl
  | endMore hpc _ _ =>
    exact h.move (fun q hq => inside_of_wakeup q (inside_of_setPc (s := s.wakeup) (by simp) q hq))
      rfl rfl rfl rfl rfl fun hc => hc
  | unpin hpc hb => exact h.move (inside_of_setPc (by simp)) rfl rfl rfl rfl rfl fun hc => hc
  | clear hpc hb =>
    have htrue : s.committing = true := hc.committing.2 ⟨p, by rw [hpc]; rfl⟩
    refine ⟨h.ids, fun q hq => h.own q (inside_of_setPc (by simp) q hq),
      fun q r hq hr => h.unique q r (inside_of_setPc (by simp) q hq)
        (inside_of_setPc (by simp) r hr),
      fun q hq => h.active q (inside_of_setPc (by simp) q hq), fun e he => ?_, h.same⟩
    rcases h.place e he with hpast | ⟨hfalse, -⟩
    · exact .inl hpast
    · rw [htrue] at hfalse
      cases hfalse
  | finish hpc =>
    exact h.move (fun q hq => inside_of_wakeup q (inside_of_setPc (s := s.wakeup) (by simp) q hq))
      rfl rfl rfl rfl rfl fun _ => rfl
  | kill hpc => exact h.move (inside_of_setPc (by simp)) rfl rfl rfl rfl rfl fun hc => hc
  | bread b => exact h.move (fun _ hq => hq) rfl rfl rfl rfl rfl fun hc => hc
  | brelse _ => exact h.move (fun _ hq => hq) rfl rfl rfl rfl rfl fun hc => hc

end History

/-! ## Runs -/

section Runs

variable {size : Int} {s t : Ops n} {p q : Fin n} {a : Act}

theorem boot_counts : Counts (boot n) := by
  refine ⟨?_, ?_, ?_, ?_, fun _ _ => rfl, ?_, .inl rfl⟩
  · simp [boot]
  · simp [boot]
  · simp [boot]
  · simp [boot]
  · simp [boot]

theorem boot_pins : Pins (boot n) := ⟨nodup_nil, fun _ _ => rfl, fun _ _ hp => by cases hp⟩

theorem boot_history : History (boot n) :=
  ⟨by simp [boot], by simp [boot], by simp [boot], by simp [boot], by simp [boot], by simp [boot]⟩

theorem reachable_inv (h : Reachable size s) : Counts s ∧ Pins s ∧ History s := by
  refine Machine.Reaches.invariant (I := fun s => Counts s ∧ Pins s ∧ History s) h
    ⟨boot_counts, boot_pins, boot_history⟩ ?_
  · rintro s ⟨p, a⟩ t ⟨hc, hp, hh⟩ hstep
    rcases step_cases hstep with ⟨-, hs⟩
    exact ⟨hc.step hs, hp.step hc hs, hh.step hc hs⟩

/-- During a commit no process gets into an operation, and nothing is logged. -/
theorem Counts.step_committing (h : Counts s) (hc : s.committing = true) (hstep : Step size s p a t) :
    (∀ q, t.pc q ≠ .op) ∧ t.logged = s.logged := by
  have hkeep : (∀ q, t.pc q = .op → s.pc q = .op) → ∀ q, t.pc q ≠ .op :=
    fun hq q ht => h.not_op hc (hq q ht)
  cases hstep with
  | enter _ hcommit _ =>
    rw [hc] at hcommit
    cases hcommit
  | endLast _ hcommit _ =>
    rw [hc] at hcommit
    cases hcommit
  | endMore _ hcommit _ =>
    rw [hc] at hcommit
    cases hcommit
  | absorb hpc _ => exact absurd hpc (h.not_op hc)
  | append hpc _ => exact absurd hpc (h.not_op hc)
  | call _ => exact ⟨hkeep (inside_of_setPc (by simp)), rfl⟩
  | sleep _ _ => exact ⟨hkeep (inside_of_setPc (by simp)), rfl⟩
  | unpin _ _ => exact ⟨hkeep (inside_of_setPc (by simp)), rfl⟩
  | clear _ _ => exact ⟨hkeep (inside_of_setPc (by simp)), rfl⟩
  | kill _ => exact ⟨hkeep (inside_of_setPc (by simp)), rfl⟩
  | finish _ =>
    exact ⟨hkeep fun q hq => inside_of_wakeup q (inside_of_setPc (s := s.wakeup) (by simp) q hq),
      rfl⟩
  | tooBig _ _ => exact ⟨hkeep fun _ hq => hq, rfl⟩
  | outside _ _ => exact ⟨hkeep fun _ hq => hq, rfl⟩
  | endPanic _ _ => exact ⟨hkeep fun _ hq => hq, rfl⟩
  | bread b => exact ⟨hkeep fun _ hq => hq, rfl⟩
  | brelse _ => exact ⟨hkeep fun _ hq => hq, rfl⟩

/-- Group commit never splits an operation. -/
theorem group_commit (h : Reachable size s) :
    (∀ p tail, s.pc p = .commit tail → s.outstanding = 0 ∧ s.committing = true) ∧
    (s.committing = true → ∀ p a t, s.step size p a = some t →
      (∀ q, t.pc q ≠ .op) ∧ t.logged = s.logged) ∧
    (∀ e ∈ s.logged, ∀ f ∈ s.logged, e.op = f.op → e.commit = f.commit) ∧
    (∀ e ∈ s.logged, (∃ bs, s.commits[e.commit]? = some bs ∧ e.block ∈ bs) ∨
      (e.commit = s.commits.length ∧ e.block ∈ s.lh)) ∧
    s.panicked ≠ some .committing ∧ s.panicked ≠ some .outside ∧ s.lh.Nodup ∧
    ((∀ p tail, s.pc p ≠ .commit tail) → ∀ b, s.refcnt b = s.gets b + if b ∈ s.lh then 1 else 0) ∧
    (s.outstanding = 0 → s.committing = false → s.lh.length = 0) := by
  rcases reachable_inv h with ⟨hc, hp, hh⟩
  refine ⟨?_, ?_, hh.same, ?_, ?_, ?_, hp.nodup, hp.outside, ?_⟩
  · intro p tail hpc
    have htrue := hc.committing.2 ⟨p, by rw [hpc]; rfl⟩
    exact ⟨hc.quiet htrue, htrue⟩
  · intro htrue p a t hstep
    exact hc.step_committing htrue (step_cases hstep).2
  · intro e he
    rcases hh.place e he with hpast | ⟨-, hnow⟩
    · exact .inl hpast
    · exact .inr hnow
  · rcases hc.panics with hn | hn <;> simp [hn]
  · rcases hc.panics with hn | hn <;> simp [hn]
  · intro hzero hfalse
    rw [hc.empty hzero hfalse, length_nil]

/-- Two operations overlap; the second to end commits the blocks of both. -/
theorem group_commit_two : ∃ s : Ops 2, Reachable 30 s ∧ s.pc 1 = .commit 0 ∧ s.logged.length = 2 ∧
      s.outstanding = 0 ∧ ∀ e ∈ s.logged, ∃ bs, s.commits[e.commit]? = some bs ∧ e.block ∈ bs := by
  have hrun : ((machine 2 30).exec (boot 2)
      [(0, .beginOp), (1, .beginOp), (0, .run), (1, .run), (0, .bread 50), (1, .bread 60),
        (0, .logWrite 50), (1, .logWrite 60), (0, .endOp), (1, .endOp)]).any
      (fun s => decide (s.pc 1 = .commit 0 ∧ s.logged.length = 2 ∧ s.commits.length = 1 ∧
        ∀ e ∈ s.logged, e.commit = 0)) = true := by
    decide +kernel
  rcases (Option.any_eq_true _ _).1 hrun with ⟨s, hs, htest⟩
  simp only [decide_eq_true_eq] at htest
  rcases htest with ⟨hpc, hlen, hcommits, hzero⟩
  have hreach : Reachable 30 s := Machine.reaches_of_exec hs
  have hgroup := group_commit hreach
  refine ⟨s, hreach, hpc, hlen, (hgroup.1 1 0 hpc).1, ?_⟩
  intro e he
  rcases hgroup.2.2.2.1 e he with hpast | ⟨hnow, -⟩
  · exact hpast
  · rw [hzero e he, hcommits] at hnow
    cases hnow

end Runs

end Ops
end Xv6Schedulers.Log

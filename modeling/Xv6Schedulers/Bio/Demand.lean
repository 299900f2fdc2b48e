import Mathlib.Algebra.BigOperators.Fin
import Mathlib.Algebra.Order.BigOperators.Group.Finset
import Xv6Schedulers.Bio.Lru
import Xv6Schedulers.Kernel.Proc

/-!
# Demand — when the buffer cache runs dry

Processes get buffers in `bread`, pin them in `log_write` and give them back.  A process that waits for
the disk inside `bread` already has its buffer.

* `Demand` adds to the cache which buffers each process has.
* `Supplied`: a process enters `bget` only while the buffers in use and the pins leave one over.
* Nothing in the kernel enforces that: `readers_run_dry`.
-/

namespace Xv6Schedulers.Bio

open Lib Function Finset

/-- The cache, and what each process has got. -/
structure Demand (n : Nat) where
  cache : Cache
  held : Fin n → List Buf

inductive Use
  | bread (dev blockno : UInt32)
  | brelse (b : Buf)
  /-- `log_write` of a block that is new to the transaction -/
  | pin (b : Buf)
  /-- `install_trans` in `commit` -/
  | unpin (b : Buf)
  deriving DecidableEq, Repr

namespace Demand

variable {n : Nat}

/-- The buffer that `bget` returns. -/
def found (c : Cache) (dev blockno : UInt32) : Option Buf :=
  (c.cached dev blockno).orElse fun _ => c.unused

def step (s : Demand n) (p : Fin n) : Use → Option (Demand n)
  | .bread dev blockno =>
      (s.cache.step (.bget dev blockno)).map fun c =>
        match found s.cache dev blockno with
        | some b => ⟨c, update s.held p (b :: s.held p)⟩
        | none => ⟨c, s.held⟩
  | .brelse b =>
      if b ∈ s.held p then
        (s.cache.step (.brelse b)).map fun c =>
          ⟨c, update s.held p ((s.held p).erase b)⟩
      else
        none
  | .pin b =>
      if b ∈ s.held p then (s.cache.step (.bpin b)).map fun c => ⟨c, s.held⟩ else none
  | .unpin b => (s.cache.step (.bunpin b)).map fun c => ⟨c, s.held⟩

def boot (n : Nat) : Demand n := ⟨.boot, fun _ => []⟩

/-- The buffers that processes have, and the pins of the transaction. -/
def total (s : Demand n) : Nat := ∑ p, (s.held p).length + ∑ b, s.cache.pins b

end Demand

def demandMachine (n : Nat) : Machine (Demand n) (Fin n × Use) where
  step s a := s.step a.1 a.2

variable {n : Nat} {s t : Demand n}

/-- A process calls `bread` only while one buffer is left over. -/
def Supplied (s : Demand n) (a : Fin n × Use) (_ : Demand n) : Prop :=
  ∀ dev blockno, a.2 = .bread dev blockno → s.total < NBUF

/-- The outstanding gets are those of the processes. -/
def Attributed (s : Demand n) : Prop := ∀ b, s.cache.gets b = ∑ p, (s.held p).count b

/-! ## Counting -/

theorem sum_count_update {h : Fin n → List Buf} (p : Fin n) (l : List Buf) (b : Buf) :
    ∑ q, (update h p l q).count b + (h p).count b
      = ∑ q, (h q).count b + l.count b := by
  have hcongr : ∀ q ∈ univ.erase p, (update h p l q).count b = (h q).count b :=
    fun q hq => by rw [update_of_ne (ne_of_mem_erase hq)]
  rw [← add_sum_erase _ _ (mem_univ p),
    ← add_sum_erase univ (fun q => (h q).count b) (mem_univ p),
    sum_congr rfl hcongr, update_self]
  omega

theorem length_eq_sum_count (l : List Buf) : l.length = ∑ b, l.count b := by
  induction l with
  | nil => simp
  | cons a l ih =>
    simp only [List.length_cons, List.count_cons, sum_add_distrib, ← ih]
    simp

theorem Attributed.sum_gets (h : Attributed s) : ∑ b, s.cache.gets b = ∑ p, (s.held p).length := by
  calc ∑ b, s.cache.gets b
      = ∑ b, ∑ p, (s.held p).count b := sum_congr rfl fun b _ => h b
    _ = ∑ p, ∑ b, (s.held p).count b := sum_comm
    _ = ∑ p, (s.held p).length :=
        sum_congr rfl fun p _ => (length_eq_sum_count (s.held p)).symm

theorem total_of_dry (hi : Inv s.cache) (h : Attributed s) (hdry : s.cache.unused = none) :
    NBUF ≤ s.total := by
  rcases hi.order with ⟨l, hl⟩
  have hused : ∀ b, 1 ≤ s.cache.refcnt b := by
    intro b
    rw [Cache.unused, hl.backward, List.find?_eq_none] at hdry
    have hb := hdry b (List.mem_reverse.2 (hl.all b))
    exact Nat.one_le_iff_ne_zero.2 (by simpa using hb)
  calc NBUF
      = ∑ _b : Buf, 1 := by simp
    _ ≤ ∑ b, s.cache.refcnt b := sum_le_sum fun b _ => hused b
    _ = ∑ b, (s.cache.gets b + s.cache.pins b) := sum_congr rfl fun b _ => hi.count b
    _ = s.total := by rw [sum_add_distrib, h.sum_gets, Demand.total]

/-! ## Every run -/

/-- What the invariant says about a state. -/
structure Served (s : Demand n) : Prop where
  inv : Inv s.cache
  attributed : Attributed s
  running : s.cache.panicked = false

theorem served_bread {p : Fin n} {dev blockno : UInt32} (h : Served s) (hsupply : s.total < NBUF)
    (hstep : s.step p (.bread dev blockno) = some t) : Served t := by
  simp only [Demand.step] at hstep
  rcases Option.map_eq_some_iff.1 hstep with ⟨c, hc, rfl⟩
  have hinv := inv_step h.inv (step_cases hc).2
  have hgot : ∀ {d : Cache} {b : Buf}, d.gets = update s.cache.gets b (s.cache.gets b + 1) →
      ∀ x, d.gets x = ∑ q, (update s.held p (b :: s.held p) q).count x := by
    intro d b hd x
    have hsum := sum_count_update (h := s.held) p (b :: s.held p) x
    rw [List.count_cons, ← h.attributed x] at hsum
    rw [hd]
    by_cases hx : x = b
    · subst hx
      rw [update_self]
      simp only [beq_self_eq_true, if_true] at hsum
      omega
    · rw [update_of_ne hx]
      simp only [beq_iff_eq, Ne.symm hx, if_false] at hsum
      omega
  cases (step_cases hc).2 with
  | @hit _ _ b hb =>
    have hfound : Demand.found s.cache dev blockno = some b := by simp [Demand.found, hb]
    simp only [hfound]
    exact ⟨hinv, hgot rfl, h.running⟩
  | @recycle _ _ b hnone hb =>
    have hfound : Demand.found s.cache dev blockno = some b := by simp [Demand.found, hnone, hb]
    simp only [hfound]
    exact ⟨hinv, hgot rfl, h.running⟩
  | dry hnone hdry =>
    exact absurd (total_of_dry h.inv h.attributed hdry) (Nat.not_le_of_lt hsupply)

theorem served_brelse {p : Fin n} {b : Buf} (h : Served s)
    (hstep : s.step p (.brelse b) = some t) : Served t := by
  simp only [Demand.step] at hstep
  split at hstep
  · rename_i hmem
    rcases Option.map_eq_some_iff.1 hstep with ⟨c, hc, rfl⟩
    have hinv := inv_step h.inv (step_cases hc).2
    have hpos : 0 < (s.held p).count b := List.count_pos_iff.2 hmem
    have hgave : ∀ {d : Cache}, d.gets = update s.cache.gets b (s.cache.gets b - 1) →
        ∀ x, d.gets x = ∑ q, (update s.held p ((s.held p).erase b) q).count x := by
      intro d hd x
      have hsum := sum_count_update (h := s.held) p ((s.held p).erase b) x
      rw [← h.attributed x] at hsum
      rw [hd]
      by_cases hx : x = b
      · subst hx
        rw [update_self]
        rw [List.count_erase_self] at hsum
        omega
      · rw [update_of_ne hx]
        rw [List.count_erase_of_ne hx] at hsum
        omega
    cases (step_cases hc).2 with
    | release _ _ => exact ⟨hinv, hgave rfl, h.running⟩
    | drop _ _ => exact ⟨hinv, hgave rfl, h.running⟩
  · cases hstep

theorem served_pin {p : Fin n} {b : Buf} (h : Served s) (hstep : s.step p (.pin b) = some t) :
    Served t := by
  simp only [Demand.step] at hstep
  split at hstep
  · rcases Option.map_eq_some_iff.1 hstep with ⟨c, hc, rfl⟩
    have hinv := inv_step h.inv (step_cases hc).2
    cases (step_cases hc).2 with
    | bpin _ => exact ⟨hinv, h.attributed, h.running⟩
  · cases hstep

theorem served_unpin {p : Fin n} {b : Buf} (h : Served s) (hstep : s.step p (.unpin b) = some t) :
    Served t := by
  simp only [Demand.step] at hstep
  rcases Option.map_eq_some_iff.1 hstep with ⟨c, hc, rfl⟩
  have hinv := inv_step h.inv (step_cases hc).2
  cases (step_cases hc).2 with
  | bunpin _ => exact ⟨hinv, h.attributed, h.running⟩

/-- As long as the buffers that processes have and the pins leave a buffer over whenever `bread` is
called, `bget` finds one. -/
theorem cache_never_dry (h : (demandMachine n).Path Supplied (.boot n) s) :
    s.cache.panicked = false := by
  have hserved : Served s := by
    refine h.invariant ⟨inv_boot, fun b => ?_, rfl⟩ ?_
    · exact (sum_eq_zero fun p _ => rfl).symm
    · rintro s ⟨p, a⟩ t hs hstep hsupply
      cases a with
      | bread dev blockno => exact served_bread hs (hsupply dev blockno rfl) hstep
      | brelse b => exact served_brelse hs hstep
      | pin b => exact served_pin hs hstep
      | unpin b => exact served_unpin (p := p) hs hstep
  exact hserved.running

/-- One process reads a block and gives it back. -/
theorem cache_never_dry_one :
    ∃ s : Demand 1, (demandMachine 1).Path Supplied (.boot 1) s ∧ s.cache.used 0 = true ∧
      s.cache.panicked = false := by
  have hrun : ((demandMachine 1).execBy (fun s _ _ => decide (s.total < NBUF)) (.boot 1)
      [(0, .bread 1 7), (0, .brelse 0)]).any (fun s => s.cache.used 0) = true := by
    decide +kernel
  rcases (Option.any_eq_true _ _).1 hrun with ⟨s, hs, hused⟩
  have hpath : (demandMachine 1).Path Supplied (.boot 1) s := by
    refine Machine.path_of_execBy (fun s a t hok => ?_) hs
    intro _ _ _
    exact of_decide_eq_true hok
  exact ⟨s, hpath, hused, cache_never_dry hpath⟩

/-- Thirty-one processes read one block each. -/
def readers : List (Fin 31 × Use) :=
  (List.finRange 31).map fun p => (p, .bread 1 (UInt32.ofNat (100 + p)))

/-- Fewer than `NPROC` processes, none of them in a transaction and each waiting for one block, use the
cache up. -/
theorem readers_run_dry :
    31 ≤ Kernel.NPROC ∧ ∃ s : Demand 31, (demandMachine 31).Reaches (.boot 31) s ∧
      s.cache.panicked = true ∧ (∀ p, (s.held p).length ≤ 1) ∧ ∀ b, s.cache.pins b = 0 := by
  refine ⟨by decide, ?_⟩
  have hrun : ((demandMachine 31).exec (.boot 31) readers).any (fun s => decide
      (s.cache.panicked = true ∧ (∀ p, (s.held p).length ≤ 1) ∧ ∀ b, s.cache.pins b = 0))
      = true := by
    decide +kernel
  exact Machine.reaches_of_any hrun

end Xv6Schedulers.Bio

import Xv6Schedulers.Sched.Account
import Xv6Schedulers.Kernel.Solo

/-!
# Classes — which processes can win the lottery

`scheduler_loteria` dispatches a process only in a round that draws its `classe`, and a draw is one
of the classes 0 to 3.  `fork` and `forkprio` store their argument in `classe` unchecked, and
`userinit` leaves the field of the zeroed table; the default that the comment in `allocproc` asks
for, class 3, goes to another field (`prioridade`).  So a process has a proper class exactly if the
call that created it asked for one.
-/

namespace Xv6Schedulers.Sched

open Kernel Lib

variable {n : Nat} {s : State n} {i : Slot}

/-! ## The draw -/

theorem exists_seed (cl : Classe) : ∃ seed, (sorteioPrioridade seed).1 = cl := by
  cases cl with
  | class0 => exact ⟨2, by decide⟩
  | class1 => exact ⟨0, by decide⟩
  | class2 => exact ⟨1, by decide⟩
  | class3 => exact ⟨7, by decide⟩

/-- `0`, `1`, `2` or `3`. -/
def ValidClass (x : Int32) : Prop := ∃ cl : Classe, x = cl.toInt32

/-- Some outcome of `sorteio_prioridade` makes the scan of `scheduler_loteria` dispatch slot `i`
when it comes to it. -/
def CanWin (s : State n) (i : Slot) : Prop :=
  ∃ seed start k ws fs, slotAt (start + k) = i ∧
    loteriaCode s (.scan (sorteioPrioridade seed).1 start k) .go = some (.goes ws fs) ∧
    .event (.dispatch i) ∈ ws

theorem slotAt_val (i : Slot) : slotAt (0 + i.val) = i := by
  apply Fin.ext
  simp [slotAt, Nat.mod_eq_of_lt i.isLt]

theorem canWin_iff (hi : (s.proc i).state = .runnable) :
    CanWin s i ↔ ValidClass (s.proc i).classe := by
  constructor
  · rintro ⟨seed, start, k, ws, fs, hslot, hcode, hev⟩
    cases loteriaCode_seg hcode with
    | dispatch _ hclasse =>
      rw [hslot] at hclasse
      exact ⟨_, hclasse⟩
    | skip _ => simp at hev
  · rintro ⟨cl, hcl⟩
    rcases exists_seed cl with ⟨seed, hseed⟩
    have hcode : loteriaCode s (.scan (sorteioPrioridade seed).1 0 i.val) .go =
        some (.goes [.state i .running, .cpuProc (some i), .event (.dispatch i)]
          [.swtch i, .loteria (.back cl i)]) := by
      simp only [loteriaCode, slotAt_val, hi, hseed, hcl, and_self, if_true]
    exact ⟨seed, 0, i.val, _, _, slotAt_val i, hcode, by simp⟩

/-! ## The class of a process -/

/-- The call that created the process asked for one of the four classes. -/
def Birth.RequestsClass (b : Birth) : Prop := ∃ call, b.call = .forked call ∧ ValidClass call.arg

/-- What the lottery needs of a process: a draw can choose it, and if no proper class was asked for
it has the lowest one. -/
def WellClassed (s : State n) (i : Slot) (b : Birth) : Prop :=
  ValidClass (s.proc i).classe ∧ CanWin s i ∧ (¬ b.RequestsClass → (s.proc i).classe = 3)

/-- In every reachable state a `RUNNABLE` process has a proper class exactly if the call that created
it asked for one. -/
theorem wellClassed_iff_requested {mode : Fin n → SchedMode} (h : Reachable mode s)
    (hi : (s.proc i).state = .runnable) :
    ∃ b, birth i s.trace = some b ∧ (WellClassed s i b ↔ b.RequestsClass) := by
  have hlive : Tracked s i := .inl (.inl hi)
  rcases reachable_founded h i hlive with ⟨b, hb, -, -, horigin⟩
  refine ⟨b, hb, ?_⟩
  -- a call stores its argument
  have hforked : ∀ call, b.call = .forked call → (s.proc i).classe = call.arg := by
    intro call hcall
    rw [hcall] at horigin
    cases call with
    | fork cls => exact horigin
    | forkprio prio => exact horigin.2.2.2
  constructor
  · rintro ⟨hvalid, -, hlowest⟩
    cases hcall : b.call with
    | userinit =>
      -- nothing was asked for, and the field still holds 0
      rw [hcall] at horigin
      have hzero : (s.proc i).classe = 0 := horigin.2.2.2
      have hnot : ¬ b.RequestsClass := by
        rintro ⟨call, hcall', -⟩
        simp [hcall] at hcall'
      have hthree := hlowest hnot
      rw [hzero] at hthree
      exact absurd hthree (by decide)
    | forked call =>
      refine ⟨call, hcall, ?_⟩
      rwa [← hforked call hcall]
  · intro hreq
    rcases hreq with ⟨call, hcall, hvalid⟩
    have hclasse : ValidClass (s.proc i).classe := by rwa [hforked call hcall]
    exact ⟨hclasse, (canWin_iff hi).2 hclasse, fun hnot => absurd ⟨call, hcall, hvalid⟩ hnot⟩

/-- `init` calls `fork(x)`. -/
def forkedWith (x : Int32) : List Choice := Solo.drawInit ++ Solo.forkTo (.fork x) 1

/-- A child of `fork(2)` can win the lottery. -/
theorem wellClassed_fork2 :
    ∃ s : State 1, Reachable (fun _ => .loteria) s ∧ (s.proc (slotAt 1)).state = .runnable ∧
      ∃ b, birth (slotAt 1) s.trace = some b ∧ WellClassed s (slotAt 1) b := by
  have hrun : ((Solo.boot .loteria).run (fun _ => true) (forkedWith 2)).any (fun v =>
      (v.proc (slotAt 1)).state = .runnable ∧
      birth (slotAt 1) v.trace = some ⟨.forked (.fork 2), 0, 0, 0⟩) = true := by
    decide +kernel
  rcases Solo.reaches_of_any hrun with ⟨v, hreach, htest⟩
  rcases wellClassed_iff_requested (i := slotAt 1) hreach htest.1 with ⟨b, hb, hiff⟩
  refine ⟨v.state, hreach, htest.1, b, hb, hiff.2 ?_⟩
  have hbb : b = ⟨.forked (.fork 2), 0, 0, 0⟩ := Option.some.inj (hb.symm.trans htest.2)
  rw [hbb]
  exact ⟨.fork 2, rfl, .class2, rfl⟩

/-- Not every `RUNNABLE` process has a proper class: a child of `fork(7)` can never win. -/
theorem fork7_never_wins :
    ¬ ∀ s : State 1, Reachable (fun _ => .loteria) s → ∀ i, (s.proc i).state = .runnable →
      ∃ b, birth i s.trace = some b ∧ WellClassed s i b := by
  intro hall
  have hrun : ((Solo.boot .loteria).run (fun _ => true) (forkedWith 7)).any (fun v =>
      (v.proc (slotAt 1)).state = .runnable ∧ (v.proc (slotAt 1)).classe = 7) = true := by
    decide +kernel
  rcases Solo.reaches_of_any hrun with ⟨v, hreach, htest⟩
  rcases hall v.state hreach (slotAt 1) htest.1 with ⟨b, -, ⟨cl, hcl⟩, -⟩
  have hseven : (7 : Int32) = cl.toInt32 := htest.2.symm.trans hcl
  cases cl <;> exact absurd hseven (by decide)

end Xv6Schedulers.Sched

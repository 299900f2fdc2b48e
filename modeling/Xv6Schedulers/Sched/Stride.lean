import Xv6Schedulers.Sched.Account
import Xv6Schedulers.Lib.Wrapping

/-!
# Stride — the pass counter

Under `scheduler_stride` the field `pass` of a process is the image in a C `int` of

`pass at birth + stride * (number of switches back)`.

Two things follow.  The accounting `tickets ≥ 1`, `stride = 10000 / tickets`,
`pass = stride * served` holds of a process exactly if it was born with clean fields: `forkprio`
always sees to that, `userinit` never does, and `fork` takes over what the previous occupant left
in the slot.  And since nothing re-bases `pass`, the counter is exact precisely while
`stride * served` is below `2 ^ 31`.
-/

namespace Xv6Schedulers.Sched

open Kernel Locking Lib

variable {n : Nat} {s t : State n} {c : Fin n}

/-! ## Runs of `scheduler_stride` -/

/-- No thread is inside `scheduler_loteria`. -/
def StrideOnly (s : State n) : Prop := ∀ u pc, .loteria pc ∉ s.stack u

theorem seg_loteria {f : Frame} {ws : List Write} {fs : Stack} {pc : LoteriaPc}
    (h : Seg s c f ws fs) (hpc : .loteria pc ∈ fs) : ∃ pc', f = .loteria pc' := by
  cases h with
  | @loteria pc' => exact ⟨pc', rfl⟩
  | ret => simp at hpc
  | stride h => cases h <;> simp at hpc
  | sched h => cases h <;> simp at hpc
  | wake h => cases h <;> simp at hpc
  | fork h => cases h <;> simp at hpc
  | exit h => cases h <;> simp at hpc
  | wait h => cases h <;> simp at hpc
  | trap h =>
    cases h with
    | @call p call => cases call <;> simp at hpc
    | _ => simp at hpc

theorem strideOnly_move (h : Inv s) (hm : Move s c t) (hs : StrideOnly s) : StrideOnly t := by
  intro u pc hmem
  rcases move_cases hm with ⟨f, rest, ws, fs, hst, hseg, rfl⟩ | hstill
  · have ha := seg_acts h.proc hst hseg
    by_cases hu : u = s.thread c
    · subst hu
      rw [ha.self, List.mem_append] at hmem
      rcases hmem with hmem | hmem
      · rcases seg_loteria hseg hmem with ⟨pc', rfl⟩
        exact hs _ pc' (by rw [hst]; exact List.mem_cons_self)
      · exact hs _ pc (by rw [hst]; exact List.mem_cons_of_mem f hmem)
    · rcases ha.other u hu with heq | ⟨i, -, -, heq⟩
      · rw [heq] at hmem
        exact hs u pc hmem
      · simp [heq, newStack] at hmem
  · rw [← mem_core rfl, hstill.core u, mem_core rfl] at hmem
    exact hs u pc hmem

/-! ## The counter -/

/-- The pass at birth plus one stride for every switch back, as a C `int`. -/
def Account.Charged (a : Account) : Prop :=
  ∀ b, a.birth = some b → a.pass = Int32.ofInt (b.pass.toInt + b.stride.toInt * a.served)

theorem charged_of_opened {p : Proc} {call : ForkCall} {a : Account} (h : Opened p call a) :
    a.Charged := by
  rcases h with ⟨b, rfl, -, -⟩
  intro b' hb'
  have hbb : b = b' := by simpa using hb'
  subst hbb
  simp

theorem charged_charge {a : Account} (hf : a.Founded) (h : a.Charged) : a.charge.Charged := by
  intro b hb
  rcases hf with ⟨b', hb', -, hstride, -⟩
  have hbb : b' = b := Option.some.inj (hb'.symm.trans hb)
  subst hbb
  have hpass := h b' hb'
  calc
    a.charge.pass = Int32.ofInt (b'.pass.toInt + b'.stride.toInt * a.served) + b'.stride := by
      rw [← hpass, ← hstride]
      rfl
    _ = Int32.ofInt (b'.pass.toInt + b'.stride.toInt * (a.served + 1 : Nat)) := ofInt_charge _ _ _

/-- The invariant of the runs of `scheduler_stride`. -/
structure StrideInv (s : State n) : Prop where
  inv : Inv s
  only : StrideOnly s
  founded : ∀ i, Tracked s i → (account s i).Founded
  charged : ∀ i, Tracked s i → (account s i).Charged

theorem strideInv_boot : StrideInv (boot fun _ : Fin n => .stride) := by
  refine ⟨boot_inv _, ?_, ?_, ?_⟩
  · intro u pc hmem
    cases u with
    | hart c => exact absurd hmem (by simp [boot, SchedMode.stack])
    | proc p =>
      have hst : (boot fun _ : Fin n => .stride).stack (.proc p) =
          if p = initSlot then newStack else [] := rfl
      rw [hst] at hmem
      split at hmem <;> simp [newStack] at hmem
  · intro i hi
    rw [boot_tracked hi, boot_account]
    exact ⟨_, rfl, rfl, rfl, rfl, rfl, rfl, rfl⟩
  · intro i hi b hb
    rw [boot_tracked hi, boot_account] at hb ⊢
    have hbirth : b = ⟨.userinit, 0, 0, 0⟩ := by simpa using hb.symm
    subst hbirth
    rfl

theorem strideInv_move (h : StrideInv s) (hrun : (s.cpu c).panicked = none) (hm : Move s c t) :
    StrideInv t := by
  have hno : ∀ cl b rest, s.stack (s.thread c) = .loteria (.back cl b) :: rest → False := by
    intro cl b rest hst
    exact h.only _ (.back cl b) (by rw [hst]; exact List.mem_cons_self)
  have hboth : ∀ i, Tracked t i → (account t i).Founded ∧ (account t i).Charged := by
    refine tracked_move (Q := fun a => a.Founded ∧ a.Charged) h.inv hm ?_ ?_ ?_
      (fun i hi => ⟨h.founded i hi, h.charged i hi⟩)
    · intro p call a ha
      exact ⟨founded_of_opened ha, charged_of_opened ha⟩
    · intro b rest _ ha
      exact ⟨ha.1, charged_charge ha.1 ha.2⟩
    · intro cl b rest hst _
      exact (hno cl b rest hst).elim
  exact ⟨move_inv h.inv hrun hm, strideOnly_move h.inv hm h.only, fun i hi => (hboth i hi).1,
    fun i hi => (hboth i hi).2⟩

theorem strideInv_reachable (h : Reachable (fun _ => .stride) s) : StrideInv s := by
  refine h.invariant strideInv_boot ?_
  intro s a t hs hstep
  rcases step_move hstep with ⟨hrun, hm⟩
  exact strideInv_move hs hrun hm

/-! ## Accounting -/

/-- The true accumulated total of the process in slot `i`. -/
def total (s : State n) (i : Slot) : Int := (s.proc i).stride.toInt * served i s.trace

/-- The accounting of stride scheduling; the last clause while the total fits in an `int`. -/
def Accounted (s : State n) (i : Slot) : Prop :=
  1 ≤ (s.proc i).tickets ∧ (s.proc i).stride = 10000 / (s.proc i).tickets ∧
    1 ≤ (s.proc i).stride ∧ (total s i < 2 ^ 31 → (s.proc i).pass.toInt = total s i)

/-- A process born with the fields that stride scheduling needs. -/
def Birth.Clean (b : Birth) : Prop :=
  1 ≤ b.tickets ∧ b.stride = 10000 / b.tickets ∧ 1 ≤ b.stride ∧ b.pass = 0

theorem prioTickets_cases (prio : Int32) :
    prioTickets prio = 100 ∨ prioTickets prio = 50 ∨ prioTickets prio = 250 ∨
      prioTickets prio = 10000 := by
  unfold prioTickets
  split
  · exact .inl rfl
  · split
    · exact .inr (.inl rfl)
    · split
      · exact .inr (.inr (.inl rfl))
      · exact .inr (.inr (.inr rfl))

theorem clean_of_forkprio {b : Birth} {prio : Int32} (htickets : b.tickets = prioTickets prio)
    (hstride : b.stride = 10000 / prioTickets prio) (hpass : b.pass = 0) : b.Clean := by
  rcases prioTickets_cases prio with h | h | h | h <;> rw [h] at htickets hstride <;>
    simp [Birth.Clean, htickets, hstride, hpass]

theorem StrideInv.pass_eq (h : StrideInv s) {i : Slot} (hi : Tracked s i) {b : Birth}
    (hb : birth i s.trace = some b) :
    (s.proc i).pass = Int32.ofInt (b.pass.toInt + total s i) := by
  rcases h.founded i hi with ⟨b', hb', -, hstride, -⟩
  have hbb : b' = b := Option.some.inj (hb'.symm.trans hb)
  subst hbb
  have hpass := h.charged i hi b' hb'
  have hstride' : (s.proc i).stride = b'.stride := hstride
  rw [total, hstride']
  exact hpass

theorem total_nonneg {i : Slot} (h : 1 ≤ (s.proc i).stride) : 0 ≤ total s i := by
  have hstride : 1 ≤ (s.proc i).stride.toInt := by
    have := Int32.le_iff_toInt_le.1 h
    simpa using this
  exact Int.mul_nonneg (by omega) (Int.natCast_nonneg _)

/-- In every reachable state of `scheduler_stride`, the accounting of a live process holds exactly
if the process was born with clean fields; `forkprio` gives clean fields whatever slot it gets, and
`userinit` does not. -/
theorem stride_accounting (h : Reachable (fun _ => .stride) s) (i : Slot)
    (hlive : Live (s.proc i).state) :
    ∃ b, birth i s.trace = some b ∧ (b.Clean → Accounted s i) ∧
      (total s i < 2 ^ 31 → Accounted s i → b.Clean) ∧
      (∀ prio, b.call = .forked (.forkprio prio) → b.Clean) ∧ (b.call = .userinit → ¬ b.Clean) := by
  have hinv := strideInv_reachable h
  have htr : Tracked s i := .inl hlive
  rcases hinv.founded i htr with ⟨b, hb, htickets, hstride, horigin⟩
  have hb' : birth i s.trace = some b := hb
  have htickets' : (s.proc i).tickets = b.tickets := htickets
  have hstride' : (s.proc i).stride = b.stride := hstride
  have hpass := hinv.pass_eq htr hb'
  refine ⟨b, hb', ?_, ?_, ?_, ?_⟩
  · rintro ⟨hone, hdiv, hpos, hzero⟩
    have hpos' : 1 ≤ (s.proc i).stride := by rwa [hstride']
    refine ⟨by rwa [htickets'], by rw [hstride', htickets', hdiv], hpos', ?_⟩
    intro hlt
    have hnonneg := total_nonneg hpos'
    rw [hpass, hzero, Int32.toInt_zero, zero_add]
    exact (toInt_ofInt_iff _).2 ⟨by omega, hlt⟩
  · rintro hlt ⟨hone, hdiv, hpos, hexact⟩
    refine ⟨by rwa [← htickets'], by rw [← hstride', ← htickets', hdiv], by rwa [← hstride'], ?_⟩
    -- the counter shows the total, so nothing was there at birth
    have heq := hexact hlt
    have hsum : (s.proc i).pass = b.pass + Int32.ofInt (total s i) := by
      rw [hpass, Int32.ofInt_add, Int32.ofInt_toInt]
    have hself : Int32.ofInt (total s i) = b.pass + Int32.ofInt (total s i) := by
      rw [← hsum, ← heq, Int32.ofInt_toInt]
    have hcancel : 0 + Int32.ofInt (total s i) = b.pass + Int32.ofInt (total s i) := by
      simpa using hself
    exact ((Int32.add_left_inj _).1 hcancel).symm
  · intro prio hcall
    rw [hcall] at horigin
    exact clean_of_forkprio horigin.1 horigin.2.1 horigin.2.2.1
  · intro hcall hclean
    rw [hcall] at horigin
    have hone := hclean.1
    rw [horigin.1] at hone
    exact absurd hone (by decide)

/-- `init` of the boot state: created by `userinit`, with no tickets. -/
theorem stride_accounting_boot : Live ((boot fun _ : Fin 1 => .stride).proc initSlot).state ∧
      birth initSlot (boot fun _ : Fin 1 => .stride).trace = some ⟨.userinit, 0, 0, 0⟩ ∧
      ¬ Accounted (boot fun _ : Fin 1 => .stride) initSlot := by
  have hlive : Live ((boot fun _ : Fin 1 => .stride).proc initSlot).state := by decide
  rcases stride_accounting (Machine.Path.refl _) initSlot hlive with ⟨b, hb, -, hclean, -, huser⟩
  have hbirth : birth initSlot (boot fun _ : Fin 1 => .stride).trace =
      some ⟨.userinit, 0, 0, 0⟩ := by decide
  have hbb : b = ⟨.userinit, 0, 0, 0⟩ := Option.some.inj (hb.symm.trans hbirth)
  subst hbb
  refine ⟨hlive, hbirth, ?_⟩
  intro hacc
  exact huser rfl (hclean (by decide) hacc)

/-- Not every live process of every reachable state is accounted for: `init` never is. -/
theorem init_not_accounted :
    ¬ ∀ s : State 1, Reachable (fun _ => .stride) s → ∀ i, Live (s.proc i).state →
      Accounted s i := by
  intro hall
  have hacc := hall (boot fun _ => .stride) (Machine.Path.refl _) initSlot (by decide)
  exact absurd hacc.1 (by decide)

end Xv6Schedulers.Sched

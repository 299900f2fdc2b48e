import Xv6Schedulers.Sched.Account

/-!
# Turn — the scheduler loops as one party of the machine

Seen from the scheduler of a hart, a step is either a segment of its own loop or something
`Inside` the rest of the kernel.  The second kind leaves alone what only a scheduler changes:

* the control point of every scheduler loop, `c->proc` and `last_index`;
* the scheduling fields of every slot in use;
* the counts of dispatches and of switches back.

`turn_cases` is that split; the invariants of the scheduling policies are proved along it.
-/

namespace Xv6Schedulers.Sched

open Kernel Locking

variable {n : Nat} {s t : State n} {c : Fin n}

/-! ## Counting -/

def dispatches (i : Slot) (tr : List Event) : Nat := tr.count (.dispatch i)

/-- How often slot `i` has switched back to a scheduler. -/
def returns (i : Slot) (tr : List Event) : Nat := tr.count (.switchBack i)

/-- How often slot `i` has been dispatched since the state `s₀`. -/
def dispatchesSince (s₀ s : State n) (i : Slot) : Nat :=
  dispatches i s.trace - dispatches i s₀.trace

/-- How often slot `i` has switched back since the state `s₀`. -/
def returnsSince (s₀ s : State n) (i : Slot) : Nat := returns i s.trace - returns i s₀.trace

/-! ## What only a scheduler does -/

/-- The frames of the two scheduler loops. -/
def Frame.isLoop : Frame → Bool
  | .loteria _ | .stride _ => true
  | _ => false

theorem Frame.isCore_of_isLoop {f : Frame} (h : Frame.isLoop f = true) : f.isCore = true := by
  cases f with
  | loteria pc => rfl
  | stride pc => rfl
  | _ => simp [Frame.isLoop] at h

/-- The assignments of the scheduler loops. -/
def byLoop : Write → Bool
  | .cpuProc _ | .lastIndex _ _ => true
  | .event (.dispatch _) | .event (.switchBack _) => true
  | _ => false

section Segments

variable {f : Frame} {ws : List Write} {fs : Stack}

/-- Other code makes none of those assignments. -/
theorem seg_not_byLoop (h : Seg s c f ws fs) (hf : Frame.isLoop f = false) :
    ∀ w ∈ ws, byLoop w = false := by
  cases h with
  | ret => simp [byLoop]
  | loteria h => simp [Frame.isLoop] at hf
  | stride h => simp [Frame.isLoop] at hf
  | sched h => cases h <;> simp [byLoop]
  | wake h => cases h <;> simp [byLoop]
  | fork h =>
    cases h with
    | @allocated call =>
      cases call <;> simp [byLoop, ForkCall.created]
    | _ => simp [byLoop]
  | exit h => cases h <;> simp [byLoop]
  | wait h => cases h <;> simp [byLoop]
  | trap h => cases h <;> simp [byLoop]

/-- Other code does not enter a scheduler loop. -/
theorem seg_not_isLoop (h : Seg s c f ws fs) (hf : Frame.isLoop f = false) :
    ∀ g ∈ fs, Frame.isLoop g = false := by
  cases h with
  | ret => simp
  | loteria h => simp [Frame.isLoop] at hf
  | stride h => simp [Frame.isLoop] at hf
  | sched h => cases h <;> simp [Frame.isLoop]
  | wake h => cases h <;> simp [Frame.isLoop]
  | fork h => cases h <;> simp [Frame.isLoop]
  | exit h => cases h <;> simp [Frame.isLoop]
  | wait h => cases h <;> simp [Frame.isLoop]
  | trap h =>
    cases h with
    | @call p call => cases call <;> simp [Frame.isLoop]
    | _ => simp [Frame.isLoop]

/-- The variables that only a scheduler assigns. -/
structure LoopView (n : Nat) where
  dispatches : Slot → Nat
  returns : Slot → Nat
  lastIndex : Classe → Nat
  myproc : Fin n → Option Slot

def loopView (s : State n) : LoopView n where
  dispatches := fun i => dispatches i s.trace
  returns := fun i => returns i s.trace
  lastIndex := s.lastIndex
  myproc := s.myproc

theorem loopView_write (s : State n) (c : Fin n) {w : Write} (hw : byLoop w = false) :
    loopView (s.write c w) = loopView s := by
  have hcpu : ∀ u : Cpu, u.proc = (s.cpu c).proc → loopView (s.setCpu c u) = loopView s := by
    intro u hu
    have hmy : (s.setCpu c u).myproc = s.myproc := by
      funext d
      by_cases hd : d = c
      · simp [State.myproc, hd, hu]
      · simp [State.myproc, hd]
    simp only [loopView, hmy]
    rfl
  cases w with
  | cpuProc => simp [byLoop] at hw
  | lastIndex => simp [byLoop] at hw
  | intr b => exact hcpu _ rfl
  | intena b => exact hcpu _ rfl
  | event e =>
    cases e with
    | dispatch => simp [byLoop] at hw
    | switchBack => simp [byLoop] at hw
    | _ => rfl
  | _ => rfl

theorem loopView_after {new : Stack} (hws : ∀ w ∈ ws, byLoop w = false) :
    loopView (after s c ws new) = loopView s :=
  State.writes_frame loopView (fun w hw s => loopView_write s c (hws w hw)) _

end Segments

/-! ## The two kinds of steps -/

/-- A step of hart `c` that no scheduler loop takes. -/
structure Inside (s t : State n) (c : Fin n) : Prop where
  frames : ∀ d f, Frame.isLoop f = true → (f ∈ t.stack (.hart d) ↔ f ∈ s.stack (.hart d))
  view : loopView t = loopView s
  /-- a process thread may fill in an `UNUSED` slot, an interrupted scheduler nothing -/
  fields : ∀ i, (s.proc i).state ≠ .unused ∨ s.cur c = none →
    (t.proc i).pass = (s.proc i).pass ∧ (t.proc i).stride = (s.proc i).stride ∧
      (t.proc i).classe = (s.proc i).classe

theorem Inside.dispatches_eq (h : Inside s t c) (i : Slot) :
    dispatches i t.trace = dispatches i s.trace :=
  congrFun (congrArg LoopView.dispatches h.view) i

theorem Inside.lastIndex_eq (h : Inside s t c) : t.lastIndex = s.lastIndex :=
  congrArg LoopView.lastIndex h.view

theorem Inside.myproc_eq (h : Inside s t c) (d : Fin n) : t.myproc d = s.myproc d :=
  congrFun (congrArg LoopView.myproc h.view) d

theorem fields_of_account {i : Slot} (h : account t i = account s i) :
    (t.proc i).pass = (s.proc i).pass ∧ (t.proc i).stride = (s.proc i).stride ∧
      (t.proc i).classe = (s.proc i).classe :=
  ⟨congrArg Account.pass h, congrArg Account.stride h, congrArg Account.classe h⟩

/-- Code outside the loops changes the scheduling fields only of a slot that `allocproc` found. -/
theorem seg_fields {f : Frame} {rest : Stack} {ws : List Write} {fs : Stack} (h : Inv s)
    (hst : s.stack (s.thread c) = f :: rest) (hseg : Seg s c f ws fs)
    (hf : Frame.isLoop f = false) (i : Slot) (hi : (s.proc i).state ≠ .unused ∨ s.cur c = none) :
    ((after s c ws (fs ++ rest)).proc i).pass = (s.proc i).pass ∧
      ((after s c ws (fs ++ rest)).proc i).stride = (s.proc i).stride ∧
      ((after s c ws (fs ++ rest)).proc i).classe = (s.proc i).classe := by
  -- `allocproc` runs in a process thread, on a slot it has found `UNUSED`
  have hne : ∀ call j pid, f = .fork (.allocFound call j pid) → i ≠ j := by
    rintro call j pid rfl rfl
    rcases hi with hi | hcur
    · exact hi (h.proc.expect c (i, .unused) (by rw [hst]; rfl))
    · have hsome := (h.wf_stack hst).1.1
      simp [hcur] at hsome
  cases seg_charge (fs ++ rest) hseg with
  | same hsame _ => exact fields_of_account (hsame i)
  | create _ hother _ _ _ => exact fields_of_account (hother i (hne _ _ _ rfl))
  | scratch hother _ => exact fields_of_account (hother i (hne _ _ _ rfl))
  | stride _ _ _ => simp [Frame.isLoop] at hf
  | loteria _ _ _ => simp [Frame.isLoop] at hf

theorem loop_alone {f : Frame} {rest : Stack} (h : Inv s)
    (hst : s.stack (s.thread c) = f :: rest) (hf : Frame.isLoop f = true) :
    s.cur c = none ∧ rest = [] := by
  have hok := (h.wf_stack hst).1
  cases f with
  | loteria pc => exact hok
  | stride pc =>
    cases pc with
    | next i best => exact ⟨hok.1, hok.2.1⟩
    | scan i best => exact ⟨hok.1, hok.2.1⟩
    | _ => exact hok
  | _ => simp [Frame.isLoop] at hf

theorem turn_cases (h : Inv s) (hm : Move s c t) :
    (∃ f ws fs, Frame.isLoop f = true ∧ s.cur c = none ∧ s.stack (.hart c) = [f] ∧
      Seg s c f ws fs ∧ t = after s c ws fs) ∨ Inside s t c := by
  rcases move_cases hm with ⟨f, rest, ws, fs, hst, hseg, rfl⟩ | hstill
  · cases hf : Frame.isLoop f with
    | true =>
      rcases loop_alone h hst hf with ⟨hcur, rfl⟩
      refine .inl ⟨f, ws, fs, hf, hcur, ?_, hseg, by simp⟩
      rw [← State.thread_of_cur_none hcur, hst]
    | false =>
      refine .inr ⟨?_, loopView_after (seg_not_byLoop hseg hf), seg_fields h hst hseg hf⟩
      intro d g hg
      have ha := seg_acts h.proc hst hseg
      by_cases hd : .hart d = s.thread c
      · rw [hd, ha.self, hst, List.mem_append, List.mem_cons]
        have hfs : g ∉ fs := fun hmem => by simp [seg_not_isLoop hseg hf g hmem] at hg
        have hne : g ≠ f := fun heq => by simp [heq, hf] at hg
        simp [hfs, hne]
      · rcases ha.other _ hd with heq | ⟨i, hi, -⟩
        · rw [heq]
        · cases hi
  · refine .inr ⟨?_, ?_, ?_⟩
    · intro d g hg
      have hcore := Frame.isCore_of_isLoop hg
      rw [← mem_core hcore, hstill.core, mem_core hcore]
    · have hmy : t.myproc = s.myproc := funext hstill.myproc
      simp only [loopView, hstill.trace, hstill.lastIndex, hmy]
    · intro i _
      simp [hstill.proc]

theorem after_hart (hcur : s.cur c = none) (ws : List Write) (fs : Stack) :
    (after s c ws fs).stack (.hart c) = fs := by
  simp [after, State.thread_of_cur_none hcur]

/-! ## The life of a slot -/

/-- Where a slot can become `UNUSED`, `USED` or `ZOMBIE`. -/
structure Life (s t : State n) (c : Fin n) (i : Slot) : Prop where
  unused : (t.proc i).state = .unused → (s.proc i).state = .unused ∨
    ((s.proc i).state = .zombie ∧ ∃ p, s.cur c = some p ∧ p ≠ i)
  used : (t.proc i).state = .used → (s.proc i).state = .used ∨ (s.proc i).state = .unused
  zombie : (t.proc i).state = .zombie → (s.proc i).state = .zombie ∨ s.cur c = some i

theorem Life.of_same {i : Slot} (h : (t.proc i).state = (s.proc i).state) : Life s t c i := by
  constructor <;> intro ht <;> rw [h] at ht <;> exact .inl ht

theorem Life.of_sets {i j : Slot} {v : ProcState} (h : SetsState s t j v)
    (hv : v = .running ∨ v = .runnable ∨ v = .sleeping) : Life s t c i := by
  by_cases hij : i = j
  · subst hij
    constructor <;> intro ht <;> rw [h.at_slot] at ht <;> simp [ht] at hv
  · exact .of_same (h.elsewhere i hij)

theorem life_of_effect {old new : Stack} (h : Inv s) (hst : s.stack (s.thread c) = old)
    (he : Effect s t c old new) (i : Slot) : Life s t c i := by
  cases he with
  | quiet hstate _ _ _ => exact .of_same (hstate i)
  | dispatch b _ _ _ _ hsets _ _ => exact .of_sets hsets (.inl rfl)
  | back b _ _ hstate _ _ _ _ => exact .of_same (hstate i)
  | leave p v hcur _ hv hsets _ _ _ _ _ =>
    rcases hv with rfl | rfl | rfl
    · exact .of_sets hsets (.inr (.inl rfl))
    · exact .of_sets hsets (.inr (.inr rfl))
    · by_cases hip : i = p
      · subst hip
        constructor <;> intro ht
        · simp [hsets.at_slot] at ht
        · simp [hsets.at_slot] at ht
        · exact .inr hcur
      · exact .of_same (hsets.elsewhere i hip)
  | wake j _ hsets _ _ _ => exact .of_sets hsets (.inr (.inl rfl))
  | alloc j hj _ hsets _ _ _ _ _ _ _ =>
    by_cases hij : i = j
    · subst hij
      constructor <;> intro ht
      · simp [hsets.at_slot] at ht
      · exact .inr hj
      · simp [hsets.at_slot] at ht
    · exact .of_same (hsets.elsewhere i hij)
  | start j _ _ hsets _ _ _ _ _ => exact .of_sets hsets (.inr (.inl rfl))
  | free j hj _ hcur hleave hsets _ _ _ =>
    by_cases hij : i = j
    · subst hij
      constructor <;> intro ht
      · rcases hj with hj | hj
        · -- the process that frees a zombie is itself running
          rcases Option.isSome_iff_exists.1 hcur with ⟨p, hp⟩
          refine .inr ⟨hj, p, hp, ?_⟩
          rintro rfl
          rw [State.thread_of_cur_some hp] at hst
          have hrun := h.proc.running_cur hp (by rw [hst, hleave])
          simp [hj] at hrun
        · exact .inl hj
      · simp [hsets.at_slot] at ht
      · simp [hsets.at_slot] at ht
    · exact .of_same (hsets.elsewhere i hij)

theorem move_life (h : Inv s) (hm : Move s c t) (i : Slot) : Life s t c i := by
  rcases move_cases hm with ⟨f, rest, ws, fs, hst, hseg, rfl⟩ | hstill
  · exact life_of_effect h hst (seg_effect h.lock h.proc hst hseg) i
  · exact .of_same (by rw [hstill.proc])

end Xv6Schedulers.Sched

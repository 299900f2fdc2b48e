import Xv6Schedulers.Kernel.Solo
import Xv6Schedulers.Lifecycle.Shape

/-!
# Pids — no two processes have the same `pid`

`allocpid` draws a number under `pid_lock`, and `allocproc` assigns it to the slot it has found
after that lock is released: in between, the number is only in the frame of `allocproc`.  `PidInv`
says that a number is in one place, a slot or such a frame, and below `nextpid`.

`nextpid` is an `int` and wraps around.  `pids_unique` is about the runs in which it has not.
-/

namespace Xv6Schedulers.Lifecycle

open Kernel Locking Lib

variable {n : Nat}

/-- Thread `u` has drawn `v` from `allocpid` and not assigned it yet. -/
def Drawn (s : State n) (u : Thread n) (v : Int32) : Prop :=
  ∃ call i, .fork (.allocFound call i v) ∈ s.stack u

/-- What the segment of frame `f` does to the number of slot `i`. -/
inductive Numbering (s t : State n) (i : Slot) : Frame → Prop
  | kept {f : Frame} (hpid : (t.proc i).pid = (s.proc i).pid)
      (hused : (t.proc i).state = .used → (s.proc i).state = .used) : Numbering s t i f
  | freed {f : Frame} (hpid : (t.proc i).pid = 0) (hfree : (t.proc i).state = .unused) :
      Numbering s t i f
  | filled {call : ForkCall} {v : Int32} (hpid : (t.proc i).pid = v) :
      Numbering s t i (.fork (.allocFound call i v))

section Segments

variable {s : State n} {c : Fin n} {f : Frame} {ws : List Write} {fs new rest : Stack}

/-- The assignments that number no slot, take none, and draw no number. -/
def unnumbered : Write → Bool
  | .pid _ _ | .state _ .used | .nextpid _ => false
  | _ => true

theorem unnumbered_proc (hws : ∀ w ∈ ws, unnumbered w = true) (i : Slot) (q : Proc) :
    (ws.foldl (fun q w => w.onProc i q) q).pid = q.pid ∧
      ((ws.foldl (fun q w => w.onProc i q) q).state = .used → q.state = .used) := by
  refine Write.foldl_onProc
    (R := fun q q' => q'.pid = q.pid ∧ (q'.state = .used → q.state = .used))
    (fun q => ⟨rfl, id⟩) ?_ ?_ q
  · rintro a b c ⟨hab, huab⟩ ⟨hbc, hubc⟩
    exact ⟨hbc.trans hab, fun hu => huab (hubc hu)⟩
  · intro w hw q
    have hplain := hws w hw
    cases w with
    | pid j v => simp [unnumbered] at hplain
    | state j v =>
      have hv : v ≠ .used := by
        rintro rfl
        simp [unnumbered] at hplain
      by_cases hj : i = j <;> simp [hj, hv]
    | _ =>
      first
        | exact ⟨rfl, id⟩
        | (simp only [Write.onProc]; split <;> exact ⟨rfl, id⟩)

/-- The numbers after a segment, which draws one only in `allocpid`. -/
def Numbers (s t : State n) (f : Frame) (fs : Stack) : Prop :=
  (∀ i, Numbering s t i f) ∧
    ((t.nextpid = s.nextpid ∧ ∀ call i v, .fork (.allocFound call i v) ∉ fs) ∨
      (t.nextpid = s.nextpid + 1 ∧ ∃ call i, f = .fork (.allocPid call i) ∧
        fs = [.release .pid, .fork (.allocFound call i s.nextpid)]))

theorem Numbers.of_unnumbered (hws : ∀ w ∈ ws, unnumbered w = true)
    (hfs : ∀ call i v, .fork (.allocFound call i v) ∉ fs) : Numbers s (after s c ws new) f fs := by
  refine ⟨fun i => .kept ?_ ?_, .inl ⟨?_, hfs⟩⟩
  · rw [State.writes_proc]
    exact (unnumbered_proc hws i _).1
  · rw [State.writes_proc]
    exact (unnumbered_proc hws i _).2
  · refine State.writes_frame (fun s : State n => s.nextpid) (fun w hw s => ?_) _
    have hplain := hws w hw
    cases w with
    | nextpid v => simp [unnumbered] at hplain
    | _ => rfl

/-- `allocproc` or `freeproc` of slot `j`. -/
theorem Numbers.of_slot {t : State n} (j : Slot) (hj : Numbering s t j f)
    (hother : ∀ i, i ≠ j → t.proc i = s.proc i) (hnext : t.nextpid = s.nextpid)
    (hfs : ∀ call i v, .fork (.allocFound call i v) ∉ fs) : Numbers s t f fs := by
  refine ⟨fun i => ?_, .inl ⟨hnext, hfs⟩⟩
  by_cases hij : i = j
  · exact hij ▸ hj
  · exact .kept (by rw [hother i hij]) (by rw [hother i hij]; exact id)

theorem seg_numbers (r : Stack) (hseg : Seg s c f ws fs) : Numbers s (after s c ws r) f fs := by
  cases hseg with
  | fork hseg =>
    cases hseg with
    | @noMemory _ j =>
      exact .of_slot j (.freed (by simp) (by simp)) (fun _ hij => by simp [hij]) rfl (by simp)
    | @noCopy _ j =>
      exact .of_slot j (.freed (by simp) (by simp)) (fun _ hij => by simp [hij]) rfl (by simp)
    | @copyFailed j =>
      exact .of_slot j (.freed (by simp) (by simp)) (fun _ hij => by simp [hij]) rfl (by simp)
    | @noCopyPrio _ j =>
      exact .of_slot j (.filled (by simp)) (fun _ hij => by simp [hij]) rfl (by simp)
    | @allocated call j =>
      cases call <;>
        exact .of_slot j (.filled (by simp)) (fun _ hij => by simp [hij]) rfl (by simp)
    | @allocPid call i =>
      exact ⟨fun _ => .kept rfl id, .inr ⟨rfl, call, i, rfl, rfl⟩⟩
    | _ => exact .of_unnumbered (by simp [unnumbered]) (by simp)
  | wait hseg =>
    cases hseg with
    | @reap _ j =>
      exact .of_slot j (.freed (by simp) (by simp)) (fun _ hij => by simp [hij]) rfl (by simp)
    | _ => exact .of_unnumbered (by simp [unnumbered]) (by simp)
  | trap hseg =>
    cases hseg with
    | @call _ call => cases call <;> exact .of_unnumbered (by simp [unnumbered]) (by simp)
    | _ => exact .of_unnumbered (by simp [unnumbered]) (by simp)
  | ret => exact .of_unnumbered (by simp [unnumbered]) (by simp)
  | loteria hseg => cases hseg <;> exact .of_unnumbered (by simp [unnumbered]) (by simp)
  | stride hseg => cases hseg <;> exact .of_unnumbered (by simp [unnumbered]) (by simp)
  | sched hseg => cases hseg <;> exact .of_unnumbered (by simp [unnumbered]) (by simp)
  | wake hseg => cases hseg <;> exact .of_unnumbered (by simp [unnumbered]) (by simp)
  | exit hseg => cases hseg <;> exact .of_unnumbered (by simp [unnumbered]) (by simp)

/-- Only `allocproc` takes an `UNUSED` slot. -/
theorem used_of_effect {t : State n} {old : Stack} {i : Slot} (h : Inv s)
    (he : Effect s t c old new) (hold : s.stack (s.thread c) = old)
    (hi : (s.proc i).state = .unused) : (t.proc i).state = .unused ∨ (t.proc i).state = .used := by
  have hkeep : ∀ j v, SetsState s t j v → i ≠ j → (t.proc i).state = .unused :=
    fun j v hsets hij => (hsets.elsewhere i hij).trans hi
  cases he with
  | quiet hstate => exact .inl ((hstate i).trans hi)
  | back _ _ _ hstate => exact .inl ((hstate i).trans hi)
  | dispatch b hb _ _ _ hsets =>
    refine .inl (hkeep _ _ hsets ?_)
    rintro rfl
    simp [hi] at hb
  | leave p v hcur _ _ hsets =>
    refine .inl (hkeep _ _ hsets ?_)
    rintro rfl
    exact h.proc.cur_ne (.inl hi) hcur
  | wake j hj hsets =>
    refine .inl (hkeep _ _ hsets ?_)
    rintro rfl
    simp [hi] at hj
  | start j hclaims _ hsets =>
    refine .inl (hkeep _ _ hsets ?_)
    rintro rfl
    have hused := h.proc.claim _ i (by rw [hold, hclaims]; exact List.mem_cons_self)
    simp [hi] at hused
  | alloc j _ _ hsets =>
    by_cases hij : i = j
    · exact .inr (hij ▸ hsets.at_slot)
    · exact .inl (hkeep _ _ hsets hij)
  | free j _ _ _ _ hsets =>
    by_cases hij : i = j
    · exact .inl (hij ▸ hsets.at_slot)
    · exact .inl (hkeep _ _ hsets hij)

end Segments

/-! ## The invariant -/

/-- The step does not give out the largest `int`, after which `nextpid` wraps around. -/
def PidsLast : Machine.Guard (State n) (Fin n × Choice) := fun s a _ =>
  ∀ call i rest, s.stack (s.thread a.1) = .fork (.allocPid call i) :: rest → s.nextpid ≠ 2147483647

/-- Every number is in one place: a slot, or the frame that is about to assign it. -/
structure PidInv (s : State n) : Prop where
  formed : Formed s
  next : 0 < s.nextpid
  free : ∀ i, (s.proc i).pid = 0 → (s.proc i).state = .unused
  slot : ∀ i, (s.proc i).pid ≠ 0 → 0 < (s.proc i).pid ∧ (s.proc i).pid < s.nextpid
  unique : ∀ i j, (s.proc i).pid = (s.proc j).pid → (s.proc i).pid ≠ 0 → i = j
  drawn : ∀ u v, Drawn s u v → 0 < v ∧ v < s.nextpid ∧ (∀ i, (s.proc i).pid ≠ v) ∧
    ∀ u', Drawn s u' v → u' = u

section Runs

variable {s t : State n} {c : Fin n} {f : Frame} {ws : List Write} {fs rest : Stack}

/-- A number that is drawn after a segment was drawn before it and is not assigned in it, or is
drawn in it. -/
theorem drawn_seg {u : Thread n} {v : Int32} (h : PidInv s)
    (hst : s.stack (s.thread c) = f :: rest) (hseg : Seg s c f ws fs)
    (hv : Drawn (after s c ws (fs ++ rest)) u v) :
    (Drawn s u v ∧ ∀ call i, f ≠ .fork (.allocFound call i v)) ∨ (v = s.nextpid ∧ u = s.thread c ∧
        (after s c ws (fs ++ rest)).nextpid = s.nextpid + 1) := by
  have hacts := seg_acts h.formed.inv.proc hst hseg
  rcases hv with ⟨call, i, hmem⟩
  by_cases hu : u = s.thread c
  · subst hu
    rw [hacts.self, List.mem_append] at hmem
    rcases hmem with hmem | hmem
    · rcases (seg_numbers (fs ++ rest) hseg).2 with ⟨-, hnone⟩ | ⟨hnext, call', j, -, rfl⟩
      · exact absurd hmem (hnone call i v)
      · have hv : v = s.nextpid := by
          simp only [List.mem_cons, Frame.fork.injEq, ForkPc.allocFound.injEq, reduceCtorEq,
            List.not_mem_nil, or_false, false_or] at hmem
          exact hmem.2.2
        exact .inr ⟨hv, rfl, hnext⟩
    · refine .inl ⟨⟨call, i, by rw [hst]; exact List.mem_cons_of_mem f hmem⟩, ?_⟩
      -- `fork` stands on frames of `usertrap`
      rintro call' j rfl
      have hshape := h.formed.shape_thread c
      rw [hst] at hshape
      rcases hshape.1 _ hmem with ⟨pc, heq⟩
      cases heq
  · rcases hacts.other u hu with heq | ⟨j, -, -, heq⟩
    · rw [heq] at hmem
      refine .inl ⟨⟨call, i, hmem⟩, ?_⟩
      rintro call' j rfl
      have hself : Drawn s (s.thread c) v := ⟨call', j, by rw [hst]; exact List.mem_cons_self⟩
      exact hu ((h.drawn _ v hself).2.2.2 u ⟨call, i, hmem⟩)
    · simp [heq, newStack] at hmem

theorem pidInv_seg (h : PidInv s) (hformed : Formed (after s c ws (fs ++ rest)))
    (hst : s.stack (s.thread c) = f :: rest) (hseg : Seg s c f ws fs)
    (hlast : ∀ call i, f = .fork (.allocPid call i) → s.nextpid ≠ 2147483647) :
    PidInv (after s c ws (fs ++ rest)) := by
  have hmono : s.nextpid ≤ (after s c ws (fs ++ rest)).nextpid := by
    rcases (seg_numbers (fs ++ rest) hseg).2 with ⟨hnext, -⟩ | ⟨hnext, call, i, hf, -⟩
    · grind
    · have := hlast call i hf
      grind
  have hdrawn := fun u v => drawn_seg (u := u) (v := v) h hst hseg
  have heffect := seg_effect h.formed.inv.lock h.formed.inv.proc hst hseg
  have hself : ∀ call i v, f = .fork (.allocFound call i v) → Drawn s (s.thread c) v := by
    rintro call i v rfl
    exact ⟨call, i, by rw [hst]; exact List.mem_cons_self⟩
  have hnum := (seg_numbers (fs ++ rest) hseg).1
  generalize after s c ws (fs ++ rest) = t at *
  have hpos := h.next
  -- where the number of a slot comes from
  have hfrom : ∀ i, (t.proc i).pid ≠ 0 → (t.proc i).pid = (s.proc i).pid ∨
      ∃ call, f = .fork (.allocFound call i (t.proc i).pid) := by
    intro i hi
    cases hnum i with
    | kept hpid => exact .inl hpid
    | freed hpid => exact absurd hpid hi
    | filled hpid => exact .inr ⟨_, by rw [hpid]⟩
  have hbelow : ∀ i, (t.proc i).pid ≠ 0 → 0 < (t.proc i).pid ∧ (t.proc i).pid < s.nextpid := by
    intro i hi
    rcases hfrom i hi with hold | ⟨call, hf⟩
    · rw [hold] at hi ⊢
      exact h.slot i hi
    · have hv := h.drawn _ _ (hself _ _ _ hf)
      exact ⟨hv.1, hv.2.1⟩
  refine ⟨hformed, ?_, ?_, ?_, ?_, ?_⟩
  · grind
  · intro i hi
    cases hnum i with
    | kept hpid hused =>
      have hfree := h.free i (hpid ▸ hi)
      rcases used_of_effect h.formed.inv heffect hst hfree with ht | ht
      · exact ht
      · have hs := hused ht
        simp [hfree] at hs
    | freed _ hfree => exact hfree
    | filled hpid =>
      have hv := (h.drawn _ _ (hself _ _ _ rfl)).1
      grind
  · intro i hi
    have := hbelow i hi
    grind
  · intro i j hij hi
    have hj : (t.proc j).pid ≠ 0 := hij ▸ hi
    rcases hfrom i hi with hold | ⟨call, hf⟩ <;> rcases hfrom j hj with hold' | ⟨call', hf'⟩
    · exact h.unique i j (by rw [← hold, ← hold', hij]) (hold ▸ hi)
    · exact absurd (hold.symm.trans hij) ((h.drawn _ _ (hself _ _ _ hf')).2.2.1 i)
    · exact absurd (hold'.symm.trans hij.symm) ((h.drawn _ _ (hself _ _ _ hf)).2.2.1 j)
    · rw [hf] at hf'
      cases hf'
      rfl
  · intro u v hv
    rcases hdrawn u v hv with ⟨hold, hf⟩ | ⟨rfl, rfl, hnext⟩
    · rcases h.drawn u v hold with ⟨hv₀, hlt, hslot, hone⟩
      refine ⟨hv₀, by grind, ?_, ?_⟩
      · intro i hi
        rcases hfrom i (by grind) with hsame | ⟨call, hcall⟩
        · exact hslot i (hsame ▸ hi)
        · exact hf call i (hi ▸ hcall)
      · intro u' hu'
        rcases hdrawn u' v hu' with ⟨hold', -⟩ | ⟨rfl, -⟩
        · exact hone u' hold'
        · grind
    · have hlt : s.nextpid < t.nextpid := by grind
      refine ⟨hpos, hlt, fun i hi => ?_, fun u' hu' => ?_⟩
      · have hi' := hbelow i (by grind)
        grind
      · rcases hdrawn u' _ hu' with ⟨hold', -⟩ | ⟨-, rfl, -⟩
        · have hv' := h.drawn u' _ hold'
          grind
        · rfl

theorem pidInv_move (h : PidInv s) (hrun : (s.cpu c).panicked = none) (hm : Move s c t)
    (hlast : ∀ call i rest, s.stack (s.thread c) = .fork (.allocPid call i) :: rest →
      s.nextpid ≠ 2147483647) : PidInv t := by
  have hformed := formed_move h.formed hrun hm
  rcases move_cases hm with ⟨f, rest, ws, fs, hst, hseg, rfl⟩ | hstill
  · exact pidInv_seg h hformed hst hseg fun call i hf => hlast call i rest (by rw [hst, hf])
  · have hdrawn : ∀ u v, Drawn t u v ↔ Drawn s u v := by
      intro u v
      refine exists_congr fun call => exists_congr fun i => ?_
      rw [← mem_core (by rfl), hstill.core u, mem_core (by rfl)]
    refine ⟨hformed, ?_, ?_, ?_, ?_, ?_⟩
    · exact hstill.nextpid ▸ h.next
    · simpa only [hstill.proc] using h.free
    · simpa only [hstill.proc, hstill.nextpid] using h.slot
    · simpa only [hstill.proc] using h.unique
    · simpa only [hdrawn, hstill.proc, hstill.nextpid] using h.drawn

theorem boot_pidInv (mode : Fin n → SchedMode) : PidInv (boot mode) := by
  have hpid : ∀ i, ((boot mode).proc i).pid = if i = initSlot then 1 else 0 := by
    intro i
    by_cases hi : i = initSlot <;> simp [boot, hi, userinitProc, Proc.zero]
  have hnone : ∀ u v, ¬ Drawn (boot mode) u v := by
    rintro u v ⟨call, i, hmem⟩
    cases u with
    | hart d =>
      have hst : (boot mode).stack (.hart d) = (mode d).stack := rfl
      rw [hst] at hmem
      cases hd : mode d <;> simp [hd, SchedMode.stack] at hmem
    | proc p =>
      have hst : (boot mode).stack (.proc p) = if p = initSlot then newStack else [] := rfl
      rw [hst] at hmem
      split at hmem <;> simp [newStack] at hmem
  have hnext : (boot mode).nextpid = 2 := rfl
  refine ⟨boot_formed mode, by rw [hnext]; decide, ?_, ?_, ?_, fun u v hv => absurd hv (hnone u v)⟩
  · intro i hi
    rw [hpid] at hi
    by_cases hinit : i = initSlot
    · simp [hinit] at hi
    · simp [boot, hinit, Proc.zero]
  · intro i hi
    rw [hpid, hnext]
    split <;> simp_all
  · intro i j hij hi
    rw [hpid, hpid] at hij
    rw [hpid] at hi
    split at hi <;> simp_all

end Runs

/-- Whatever the order in which the harts take their steps, as long as `nextpid` has not wrapped
around: a process has a `pid` that `allocpid` has given out, and no other slot has it. -/
theorem pids_unique (mode : Fin n → SchedMode) {s : State n}
    (h : (machine n).Path PidsLast (boot mode) s) (i : Slot) (hi : (s.proc i).state ≠ .unused) :
    0 < (s.proc i).pid ∧ (s.proc i).pid < s.nextpid ∧
      ∀ j, (s.proc j).pid = (s.proc i).pid → j = i := by
  have hinv : PidInv s := by
    refine h.invariant (boot_pidInv mode) ?_
    intro s a t hs hstep hlast
    rcases step_move hstep with ⟨hrun, hm⟩
    exact pidInv_move hs hrun hm hlast
  have hpid : (s.proc i).pid ≠ 0 := fun hzero => hi (hinv.free i hzero)
  have hslot := hinv.slot i hpid
  exact ⟨hslot.1, hslot.2, fun j hj => (hinv.unique i j hj.symm hpid).symm⟩

/-- `init` has made one child. -/
theorem pids_unique_child : ∃ s : State 1, (machine 1).Path PidsLast (boot fun _ => .loteria) s ∧
    (s.proc initSlot).state = .running ∧ (s.proc (slotAt 1)).state = .runnable ∧
    ∀ j, (s.proc j).pid = (s.proc (slotAt 1)).pid → j = slotAt 1 := by
  have hrun : ((Solo.boot .loteria).run (fun v => decide (v.nextpid ≠ 2147483647))
      (Solo.drawInit ++ Solo.forkTo (.fork 0) 1)).any (fun v =>
        (v.proc initSlot).state = .running ∧ (v.proc (slotAt 1)).state = .runnable) = true := by
    decide +kernel
  rcases (Option.any_eq_true _ _).1 hrun with ⟨v, hv, htest⟩
  simp only [decide_eq_true_eq] at htest
  have hpath : (machine 1).Path PidsLast (Solo.boot .loteria).state v.state := by
    refine Solo.run_path hv ?_
    intro v hv s ch t hs call i rest hst
    rcases hs with rfl | ⟨-, -, l, rest', hspin⟩
    · exact of_decide_eq_true hv
    · rw [hspin] at hst
      cases hst
  rw [Solo.boot_state] at hpath
  refine ⟨v.state, hpath, htest.1, htest.2, ?_⟩
  exact (pids_unique _ hpath (slotAt 1) (by simp [htest.2])).2.2

end Xv6Schedulers.Lifecycle

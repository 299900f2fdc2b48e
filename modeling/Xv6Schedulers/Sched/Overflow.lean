import Xv6Schedulers.Sched.Stride
import Xv6Schedulers.Kernel.Solo

/-!
# Overflow — the range of the `pass` counter

`min_pass_proc->pass += min_pass_proc->stride` is an addition of `int`s that nothing ever rebases.

* `pass_counter_exact`: as long as the updates keep the true totals below `2 ^ 31`, the counters of
  the processes created by `forkprio` are those totals and the scan compares them as such, and the
  next update is exact if and only if it keeps its total below `2 ^ 31` too.
* `pass_counter_wraps`: nothing in the kernel keeps it there.  One process that is preempted over and
  over again comes to an update that leaves the range.
-/

namespace Xv6Schedulers.Sched

open Kernel Locking Lib Function

variable {n : Nat} {s t : State n} {c : Fin n}

/-! ## The range of the counter -/

/-- Hart `c` is about to execute `min_pass_proc->pass += min_pass_proc->stride` for slot `b`. -/
def AtUpdate (s : State n) (c : Fin n) (b : Slot) : Prop :=
  ∃ rest, s.stack (s.thread c) = .stride (.back b) :: rest

/-- The process in slot `i` was created by `forkprio`. -/
def ForkprioBorn (s : State n) (i : Slot) : Prop :=
  ∃ b prio, birth i s.trace = some b ∧ b.call = .forked (.forkprio prio)

/-- A hart at the update holds a lock, so nothing but the update can happen. -/
theorem update_move {b : Slot} (h : Inv s) (hrun : (s.cpu c).panicked = none) (hb : AtUpdate s c b)
    (hm : Move s c t) : (t.proc b).pass = (s.proc b).pass + (s.proc b).stride := by
  rcases hb with ⟨rest, hst⟩
  have hintr : (s.cpu c).intr = false := by
    refine h.lock.intr c hrun ?_
    rw [h.noff_stack hst hrun]
    simp
  cases hm with
  | seg hst' hseg =>
    rw [hst] at hst'
    cases hst'
    cases hseg with
    | stride hseg =>
      cases hseg with
      | back => simp
  | panic hst' hcode =>
    rw [hst] at hst'
    cases hst'
    cases code_panic hcode
  | interrupt hon _ => simp [hintr] at hon
  | acquire hst' _ => simp [hst] at hst'
  | acquireTwice hst' _ => simp [hst] at hst'
  | spin hst' _ => simp [hst] at hst'
  | release hst' _ _ => simp [hst] at hst'
  | releaseUnheld hst' _ => simp [hst] at hst'
  | releasePanic hst' _ _ => simp [hst] at hst'
  | swtch hst' => simp [hst] at hst'
  | swtchBack hst' => simp [hst] at hst'

theorem live_of_atUpdate {b : Slot} (h : Inv s) (hb : AtUpdate s c b) : Live (s.proc b).state := by
  rcases hb with ⟨rest, hst⟩
  have hcur : s.cur c = none := (h.wf_stack hst).1.1
  rw [State.thread_of_cur_none hcur] at hst
  have hmy : s.myproc c = some b := by
    rw [h.proc.myproc c, hst]
    rfl
  have hoff : Off (s.proc b).state := by
    refine h.proc.off c b hmy ?_
    simp [onCpu, hcur, hst]
  rcases hoff with hoff | hoff | hoff <;> simp [Live, hoff]

/-- The condition on a step: an update of `pass` keeps the true total below `2 ^ 31`. -/
def NoWrap (s : State n) (a : Fin n × Choice) (_t : State n) : Prop :=
  ∀ b, AtUpdate s a.1 b → total s b + (s.proc b).stride.toInt < 2 ^ 31

/-- The totals of the processes of `forkprio` fit. -/
def Account.Bounded (a : Account) : Prop :=
  ∀ b prio, a.birth = some b → b.call = .forked (.forkprio prio) →
    a.stride.toInt * a.served < 2 ^ 31

theorem bounded_of_opened {p : Proc} {call : ForkCall} {a : Account} (h : Opened p call a) :
    a.Bounded := by
  rcases h with ⟨b, rfl, -, -⟩
  intro b' prio _ _
  simp

theorem bounded_of_noWrap (h : (machine n).Path NoWrap (boot fun _ => .stride) s) :
    StrideInv s ∧ ∀ i, Tracked s i → (account s i).Bounded := by
  refine h.invariant (I := fun s => StrideInv s ∧ ∀ i, Tracked s i → (account s i).Bounded)
    ⟨strideInv_boot, ?_⟩ ?_
  · intro i hi b prio hb hcall
    rw [boot_tracked hi, boot_account] at hb
    have hbirth : b = ⟨.userinit, 0, 0, 0⟩ := by simpa using hb.symm
    simp [hbirth] at hcall
  · intro s a t hs hstep hguard
    rcases step_move hstep with ⟨hrun, hm⟩
    refine ⟨strideInv_move hs.1 hrun hm, ?_⟩
    refine tracked_move hs.1.inv hm (fun p call a ha => bounded_of_opened ha) ?_ ?_ hs.2
    · intro b rest hst _ b' prio _ _
      have hlt := hguard b ⟨rest, hst⟩
      have hsum : (account s b).charge.stride.toInt * (account s b).charge.served =
          total s b + (s.proc b).stride.toInt := by
        simp only [Account.charge, account, total]
        push_cast
        ring
      rw [hsum]
      exact hlt
    · intro cl b rest hst _
      have hmem := hs.1.only _ (.back cl b) (by rw [hst]; exact List.mem_cons_self)
      exact hmem.elim

theorem StrideInv.forkprio_facts (h : StrideInv s) {i : Slot} (hi : Tracked s i)
    (hborn : ForkprioBorn s i) :
    (s.proc i).pass = Int32.ofInt (total s i) ∧ 0 ≤ total s i ∧ 1 ≤ (s.proc i).stride.toInt := by
  rcases hborn with ⟨b, prio, hb, hcall⟩
  rcases h.founded i hi with ⟨b', hb', -, hstride, horigin⟩
  have hbb : b' = b := Option.some.inj (hb'.symm.trans hb)
  subst hbb
  rw [hcall] at horigin
  have hclean := clean_of_forkprio horigin.1 horigin.2.1 horigin.2.2.1
  have hstride' : (s.proc i).stride = b'.stride := hstride
  have hone : 1 ≤ (s.proc i).stride := by
    rw [hstride']
    exact hclean.2.2.1
  refine ⟨?_, total_nonneg hone, ?_⟩
  · rw [h.pass_eq hi hb, horigin.2.2.1, Int32.toInt_zero, zero_add]
  · have hle := Int32.le_iff_toInt_le.1 hone
    simpa using hle

/-- In every run whose updates keep the true totals below `2 ^ 31`: the next update of a process
created by `forkprio` stays in the range of `int` exactly if it meets the condition too, and the
scan orders such processes as their true totals do. -/
theorem pass_counter_exact (h : (machine n).Path NoWrap (boot fun _ => .stride) s) :
    (∀ c t b, step s c .go = some t → AtUpdate s c b → ForkprioBorn s b →
      ((t.proc b).pass.toInt = (s.proc b).pass.toInt + (s.proc b).stride.toInt ↔
        total s b + (s.proc b).stride.toInt < 2 ^ 31)) ∧
    (∀ i j, Live (s.proc i).state → Live (s.proc j).state → ForkprioBorn s i → ForkprioBorn s j →
      ((s.proc i).pass < (s.proc j).pass ↔ total s i < total s j) ∧
        ((s.proc i).pass = (s.proc j).pass ↔ total s i = total s j)) := by
  rcases bounded_of_noWrap h with ⟨hinv, hbound⟩
  have hfits : ∀ i, Live (s.proc i).state → ForkprioBorn s i → Fits (total s i) := by
    intro i hi hborn
    rcases hinv.forkprio_facts (.inl hi) hborn with ⟨-, hnonneg, -⟩
    rcases hborn with ⟨b, prio, hb, hcall⟩
    exact ⟨by omega, hbound i (.inl hi) b prio hb hcall⟩
  constructor
  · intro c t b hstep hat hborn
    rcases step_move hstep with ⟨hrun, hm⟩
    have hlive := live_of_atUpdate hinv.inv hat
    rcases hinv.forkprio_facts (.inl hlive) hborn with ⟨hpass, hnonneg, hone⟩
    rw [update_move hinv.inv hrun hat hm, hpass, toInt_add_iff (hfits b hlive hborn)]
    constructor
    · intro hfit
      exact hfit.2
    · intro hlt
      exact ⟨by omega, hlt⟩
  · intro i j hi hj hbi hbj
    rcases hinv.forkprio_facts (.inl hi) hbi with ⟨hpi, -, -⟩
    rcases hinv.forkprio_facts (.inl hj) hbj with ⟨hpj, -, -⟩
    rw [hpi, hpj]
    exact ⟨ofInt_lt_iff (hfits i hi hbi) (hfits j hj hbj),
      ofInt_eq_iff (hfits i hi hbi) (hfits j hj hbj)⟩

def noWrap (v : Solo) : Bool :=
  match v.top with
  | .stride (.back b) :: _ => decide (total v.state b + (v.proc b).stride.toInt < 2 ^ 31)
  | _ => true

theorem noWrap_path {v w : Solo} {chs : List Choice} (h : v.run noWrap chs = some w) :
    (machine 1).Path NoWrap v.state w.state := by
  refine Solo.run_path h ?_
  rintro v hv s ch t hs b ⟨rest, hst⟩
  rcases hs with rfl | ⟨-, -, l, rest', hspin⟩
  · rw [Solo.state_top] at hst
    simp only [noWrap, hst, decide_eq_true_eq] at hv
    exact hv
  · simp [hspin] at hst

/-- `init` calls `forkprio(1)` and sleeps; the child runs until its first time slice ends. -/
def firstUpdate : List Choice :=
  Solo.scanOne ++ Solo.startUser ++ Solo.forkTo (.forkprio 1) 1 ++ Solo.sleepOn (.obj 0) ++ Solo.go 2 ++
    Solo.scanOne ++ Solo.startUser ++ Solo.preempt

/-- The first update of a child of `forkprio(1)` is exact. -/
theorem pass_counter_exact_firstUpdate :
    ∃ s t : State 1, (machine 1).Path NoWrap (boot fun _ => .stride) s ∧
      AtUpdate s 0 (slotAt 1) ∧ ForkprioBorn s (slotAt 1) ∧ step s 0 .go = some t ∧
      (s.proc (slotAt 1)).stride = 200 ∧
      (t.proc (slotAt 1)).pass.toInt =
        (s.proc (slotAt 1)).pass.toInt + (s.proc (slotAt 1)).stride.toInt := by
  have hrun : ((Solo.boot .stride).run noWrap firstUpdate).any (fun v =>
      v.top = [.stride (.back (slotAt 1))] ∧ (v.next .go).isSome ∧
      birth (slotAt 1) v.trace = some ⟨.forked (.forkprio 1), 50, 200, 0⟩ ∧
      total v.state (slotAt 1) = 0 ∧ (v.proc (slotAt 1)).stride = 200) = true := by
    decide +kernel
  rcases (Option.any_eq_true _ _).1 hrun with ⟨v, hv, htest⟩
  simp only [decide_eq_true_eq] at htest
  rcases htest with ⟨htop, hnext, hbirth, htotal, hstride⟩
  rcases Option.isSome_iff_exists.1 hnext with ⟨w, hw⟩
  have hpath := noWrap_path hv
  rw [Solo.boot_state] at hpath
  have hat : AtUpdate v.state 0 (slotAt 1) := ⟨[], by rw [Solo.state_top, htop]⟩
  have hborn : ForkprioBorn v.state (slotAt 1) := ⟨_, 1, hbirth, rfl⟩
  have hstep : step v.state 0 .go = some w.state := by
    refine Solo.next_step ?_ hw
    intro _ l rest
    simp [htop]
  refine ⟨v.state, w.state, hpath, hat, hborn, hstep, hstride, ?_⟩
  refine ((pass_counter_exact hpath).1 0 w.state (slotAt 1) hstep hat hborn).2 ?_
  have hstride' : (v.state.proc (slotAt 1)).stride = 200 := hstride
  rw [htotal, hstride']
  decide

/-! ## A process that is preempted over and over again -/

/-- The stack of a process whose time slice has ended in user space. -/
def preempted (q : Slot) : Stack :=
  [.sched (.schedRet false), .release (.proc q), .trap .ret, .trap .user]

/-- Process `q` has come back from a time slice with `pass = x`, and nothing else is `RUNNABLE`. -/
structure Returned (q : Slot) (x : Int32) (v : Solo) : Prop where
  cur : v.cur = none
  hart : v.hart = [.stride (.back q)]
  held : v.held = [.proc q]
  cpu : v.cpu = ⟨some q, 1, false, false, none⟩
  kstack : v.kstack q = preempted q
  only : ∀ i, (v.proc i).state = .runnable ↔ i = q
  killed : (v.proc q).killed = 0
  stride : (v.proc q).stride = 200
  pass : (v.proc q).pass = x

section Loop

variable {v : Solo} {best : Option Slot} {q : Slot} {x : Int32}

theorem update_run (h : Returned q x v) : v.run (fun _ => true) (Solo.go 3) = some { v with
        proc := update v.proc q { v.proc q with pass := x + 200 }
        hart := [.stride (.next 0 none)]
        held := []
        cpu := ⟨none, 0, false, true, none⟩
        trace := .switchBack q :: v.trace } := by
  rcases v with ⟨proc, nextpid, lastIndex, held, cpu, cur, hart, kstack, a0, trace⟩
  rcases h with ⟨rfl, rfl, rfl, rfl, -, -, -, hstride, hpass⟩
  simp only at hstride hpass
  simp [Solo.run, Solo.go, Solo.next, Solo.frame, Solo.top, Solo.put, Solo.write, code, strideCode,
    Cpu.popOff, hstride, hpass]
  funext i
  by_cases hi : i = q
  · subst hi
    simp [hstride]
  · simp [hi]

theorem visit_skip {i : Slot} (hcur : v.cur = none) (hhart : v.hart = [.stride (.next i.val best)])
    (hrun : v.cpu.panicked = none) (hintr : v.cpu.noff ≠ 0 → v.cpu.intr = false)
    (hstate : (v.proc i).state ≠ .runnable) (hheld : .proc i ∉ v.held) :
    v.run (fun _ => true) (Solo.go 4) = some { v with
        hart := [.stride (.next (i.val + 1) best)]
        cpu := { v.cpu with intena := if v.cpu.noff = 0 then v.cpu.intr else v.cpu.intena } } := by
  rcases v with ⟨proc, nextpid, lastIndex, held, cpu, cur, hart, kstack, a0, trace⟩
  simp only at hcur hhart hstate hheld hrun hintr
  subst hcur hhart
  have hpop := Cpu.popOff_pushOff hintr
  have hpan : cpu.pushOff.panicked = none := hrun
  have hfilter : held.filter (fun l => !decide (l = .proc i)) = held := by
    refine List.filter_eq_self.2 ?_
    intro l hl
    have hne : l ≠ .proc i := fun heq => hheld (heq ▸ hl)
    simp [hne]
  simp [Solo.run, Solo.go, Solo.next, Solo.frame, Solo.top, Solo.put, code, strideCode, hrun,
    hheld, hpan, hstate, hpop, hfilter]

theorem scan_skip {i d : Nat} (hcur : v.cur = none) (hhart : v.hart = [.stride (.next i best)])
    (hrun : v.cpu.panicked = none) (hintr : v.cpu.noff ≠ 0 → v.cpu.intr = false)
    (hle : i + d ≤ NPROC)
    (hskip : ∀ j : Slot, i ≤ j.val → j.val < i + d →
      (v.proc j).state ≠ .runnable ∧ .proc j ∉ v.held) :
    ∃ b, (machine 1).Reaches v.state
      ({ v with hart := [.stride (.next (i + d) best)], cpu := { v.cpu with intena := b } } :
        Solo).state := by
  induction d with
  | zero =>
    refine ⟨v.cpu.intena, ?_⟩
    simp only [Nat.add_zero, ← hhart]
    exact Machine.Path.refl _
  | succ d ih =>
    rcases ih (by omega) (fun j hj hd => hskip j hj (by omega)) with ⟨b, hb⟩
    have hlt : i + d < NPROC := by omega
    rcases hskip ⟨i + d, hlt⟩ (by simp) (by simp) with ⟨hstate, hheld⟩
    let u : Solo :=
      { v with hart := [.stride (.next (i + d) best)], cpu := { v.cpu with intena := b } }
    have hvisit := visit_skip (v := u) (i := ⟨i + d, hlt⟩) hcur rfl hrun hintr hstate hheld
    exact ⟨_, hb.trans (Solo.run_reaches hvisit)⟩

theorem visit_first (hcur : v.cur = none) (hhart : v.hart = [.stride (.next q.val none)])
    (hrun : v.cpu.panicked = none) (hstate : (v.proc q).state = .runnable)
    (hheld : .proc q ∉ v.held) :
    v.run (fun _ => true) (Solo.go 3) = some { v with
        hart := [.stride (.next (q.val + 1) (some q))]
        held := .proc q :: v.held
        cpu := v.cpu.pushOff } := by
  rcases v with ⟨proc, nextpid, lastIndex, held, cpu, cur, hart, kstack, a0, trace⟩
  simp only at hcur hhart hstate hheld hrun
  subst hcur hhart
  have hpan : cpu.pushOff.panicked = none := hrun
  simp [Solo.run, Solo.go, Solo.next, Solo.frame, Solo.top, Solo.put, code, strideCode, hrun,
    hheld, hpan, hstate]

theorem slice_run {b : Bool} (hcur : v.cur = none) (hhart : v.hart = [.stride (.next NPROC (some q))])
    (hheld : v.held = [.proc q]) (hcpu : v.cpu = ⟨none, 1, b, false, none⟩)
    (hstack : v.kstack q = preempted q) (hkilled : (v.proc q).killed = 0) :
    v.run (fun _ => true) (Solo.go 5 ++ Solo.preempt) = some { v with
        proc := update v.proc q { v.proc q with state := .runnable }
        hart := [.stride (.back q)]
        cpu := ⟨some q, 1, false, false, none⟩
        a0 := update v.a0 q 0
        trace := .dispatch q :: v.trace } := by
  rcases v with ⟨proc, nextpid, lastIndex, held, cpu, cur, hart, kstack, a0, trace⟩
  simp only at hcur hhart hheld hcpu hstack hkilled
  subst hcur hhart hheld hcpu
  simp [Solo.run, Solo.go, Solo.preempt, Solo.next, Solo.frame, Solo.top, Solo.put, Solo.write,
    code, strideCode, schedCode, trapCode, wakeCode, preempted, hstack, Cpu.popOff, Cpu.pushOff,
    hkilled]
  funext i
  by_cases hi : i = q
  · subst hi
    simp [hkilled]
  · simp [hi]

theorem round_reaches (h : Returned q x v) :
    ∃ w : Solo, (machine 1).Reaches v.state w.state ∧ Returned q (x + 200) w ∧
      w.trace = .dispatch q :: .switchBack q :: v.trace := by
  let proc := update v.proc q { v.proc q with pass := x + 200 }
  have hproc : ∀ i, (proc i).state = .runnable ↔ i = q := by
    intro i
    have honly := h.only i
    by_cases hi : i = q
    · subst hi
      simpa [proc] using honly
    · simpa [proc, hi] using honly
  let v₁ : Solo :=
    { v with
      proc := proc
      hart := [.stride (.next 0 none)]
      held := []
      cpu := ⟨none, 0, false, true, none⟩
      trace := .switchBack q :: v.trace }
  have h₁ : (machine 1).Reaches v.state v₁.state := Solo.run_reaches (update_run h)
  have hskip : ∀ j : Slot, j ≠ q → (proc j).state ≠ .runnable := fun j hj hr => hj ((hproc j).1 hr)
  have hlow := scan_skip (v := v₁) (i := 0) (d := q.val) h.cur rfl rfl
    (by simp [v₁]) (by omega) (fun j _ hj => ⟨hskip j (by rintro rfl; omega), by simp [v₁]⟩)
  rcases hlow with ⟨b, h₂⟩
  let v₂ : Solo :=
    { v₁ with hart := [.stride (.next (0 + q.val) none)], cpu := { v₁.cpu with intena := b } }
  have hfirst := visit_first (v := v₂) (q := q) h.cur (by simp [v₂]) rfl ((hproc q).2 rfl)
    (by simp [v₂, v₁])
  let v₃ : Solo :=
    { v₂ with
      hart := [.stride (.next (q.val + 1) (some q))]
      held := [.proc q]
      cpu := ⟨none, 1, true, false, none⟩ }
  have h₃ : (machine 1).Reaches v₂.state v₃.state := Solo.run_reaches hfirst
  have hhigh := scan_skip (v := v₃) (i := q.val + 1) (d := NPROC - (q.val + 1))
    h.cur rfl rfl (by simp [v₃]) (by omega) (fun j hj _ => by
      have hne : j ≠ q := by
        rintro rfl
        omega
      exact ⟨hskip j hne, by simpa [v₃] using hne⟩)
  rcases hhigh with ⟨b', h₄⟩
  have hend : q.val + 1 + (NPROC - (q.val + 1)) = NPROC := by omega
  rw [hend] at h₄
  let v₄ : Solo :=
    { v₃ with hart := [.stride (.next NPROC (some q))], cpu := ⟨none, 1, b', false, none⟩ }
  have hslice := slice_run (v := v₄) h.cur rfl rfl rfl h.kstack (by
    simpa [v₄, v₃, v₂, v₁, proc] using h.killed)
  refine ⟨_, (h₁.trans h₂).trans ((h₃.trans h₄).trans (Solo.run_reaches hslice)), ?_, rfl⟩
  refine ⟨h.cur, rfl, rfl, rfl, h.kstack, ?_, ?_, ?_, ?_⟩
  · intro i
    by_cases hi : i = q
    · subst hi
      simp
    · simpa [hi, v₄] using hproc i
  · simpa [v₄, v₃, v₂, v₁, proc] using h.killed
  · simpa [v₄, v₃, v₂, v₁, proc] using h.stride
  · simp [v₄, v₃, v₂, v₁, proc]

theorem rounds_reach (h : Returned q x v) (k : Nat) :
    ∃ w : Solo, (machine 1).Reaches v.state w.state ∧ Returned q (x + Int32.ofNat (200 * k)) w ∧
      birth q w.trace = birth q v.trace := by
  induction k with
  | zero => exact ⟨v, Machine.Path.refl _, by simpa using h, rfl⟩
  | succ k ih =>
    rcases ih with ⟨w, hw, hret, hbirth⟩
    rcases round_reaches hret with ⟨u, hu, hret', htrace⟩
    refine ⟨u, hw.trans hu, ?_, ?_⟩
    · have hadd : x + Int32.ofNat (200 * (k + 1)) = x + Int32.ofNat (200 * k) + 200 := by
        rw [Nat.mul_add, Int32.ofNat_add, Int32.add_assoc]
        rfl
      rw [hadd]
      exact hret'
    · rw [htrace, ← hbirth]
      simp [birth]

end Loop

/-- Not every update of a process created by `forkprio` stays in the range of `int`: after
`10737418` time slices of a child of `forkprio(1)`, `pass = 2147483600` and `stride = 200`. -/
theorem pass_counter_wraps :
    ¬ ∀ s : State 1, Reachable (fun _ => .stride) s → ∀ c t b, step s c .go = some t →
      AtUpdate s c b → ForkprioBorn s b →
      (t.proc b).pass.toInt = (s.proc b).pass.toInt + (s.proc b).stride.toInt := by
  intro hall
  have hrun : ((Solo.boot .stride).run (fun _ => true) firstUpdate).any (fun v =>
      v.cur = none ∧ v.hart = [.stride (.back (slotAt 1))] ∧ v.held = [.proc (slotAt 1)] ∧
      v.cpu = ⟨some (slotAt 1), 1, false, false, none⟩ ∧
      v.kstack (slotAt 1) = preempted (slotAt 1) ∧
      (∀ i, (v.proc i).state = .runnable ↔ i = slotAt 1) ∧ (v.proc (slotAt 1)).killed = 0 ∧
      (v.proc (slotAt 1)).stride = 200 ∧ (v.proc (slotAt 1)).pass = 0 ∧
      birth (slotAt 1) v.trace = some ⟨.forked (.forkprio 1), 50, 200, 0⟩) = true := by
    decide +kernel
  rcases Solo.reaches_of_any hrun with ⟨v, hreach, hcur, hhart, hheld, hcpu, hstack, honly, hkilled, hstride, hpass, hbirth⟩
  have hret : Returned (slotAt 1) 0 v :=
    ⟨hcur, hhart, hheld, hcpu, hstack, honly, hkilled, hstride, hpass⟩
  rcases rounds_reach hret 10737418 with ⟨w, hw, hret', hbirth'⟩
  have hupdate := update_run hret'
  have hnext : ∃ u, w.next .go = some u := by
    cases hn : w.next .go with
    | none => simp [Solo.go, List.replicate, Solo.run, hn] at hupdate
    | some u => exact ⟨u, rfl⟩
  rcases hnext with ⟨u, hu⟩
  have htop : w.top = [.stride (.back (slotAt 1))] := by simp [Solo.top, hret'.cur, hret'.hart]
  have hat : AtUpdate w.state 0 (slotAt 1) := ⟨[], by rw [Solo.state_top, htop]⟩
  have hborn : ForkprioBorn w.state (slotAt 1) := ⟨_, 1, hbirth'.trans hbirth, rfl⟩
  have hstep : step w.state 0 .go = some u.state := by
    refine Solo.next_step ?_ hu
    intro _ l rest
    simp [htop]
  rcases step_move hstep with ⟨hok, hm⟩
  have hreach' : Reachable (fun _ => .stride) w.state := hreach.trans hw
  have hexact := hall w.state hreach' 0 u.state (slotAt 1) hstep hat hborn
  rw [update_move (reachable_inv hreach') hok hat hm, Solo.state_proc, hret'.pass, hret'.stride]
    at hexact
  exact absurd hexact (by decide)

end Xv6Schedulers.Sched

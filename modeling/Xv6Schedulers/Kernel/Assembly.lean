import Mathlib.Logic.Function.Basic
import Xv6Schedulers.Lib.Machine
import Xv6Schedulers.Vm.PageTable

/-!
# Assembly — `swtch.S`, `trampoline.S` and `kernelvec.S`

The three files save registers in memory and load them again, under a table of registers and offsets
for each.  `run_save` and `run_restore` say what a list of saves and a list of loads do, for any table
in which no register and no offset occurs twice.

* `swtch_resumes`: over any run of the kernel, a thread that `swtch` switches to goes on where it left.
* `trap_round_trip`: the way into the kernel and back keeps every register of user code.
* `kernelvec_transparent`: an interrupt in the kernel changes no register but `tp`.

Memory is physical and made of doublewords; no code here accesses anything else.
-/

namespace Xv6Schedulers.Asm

open Lib Function List

inductive Reg
  | ra | sp | gp | tp | t0 | t1 | t2 | t3 | t4 | t5 | t6 | a0 | a1 | a2 | a3 | a4 | a5 | a6 | a7
  | s0 | s1 | s2 | s3 | s4 | s5 | s6 | s7 | s8 | s9 | s10 | s11
  deriving DecidableEq

inductive Csr
  | satp | sscratch | sepc
  deriving DecidableEq

structure Core where
  reg : Reg → UInt64
  csr : Csr → UInt64
  /-- where the code goes on after its last instruction -/
  pc : UInt64

/-- A hart, and the memory. -/
structure Hart extends Core where
  mem : UInt64 → UInt64

/-- The instructions of the three files; `sd r k b` is `sd r, k(b)`. -/
inductive Instr
  | sd (r : Reg) (k : UInt64) (b : Reg)
  | ld (r : Reg) (k : UInt64) (b : Reg)
  | addi (r b : Reg) (k : UInt64)
  | li (r : Reg) (v : UInt64)
  | csrw (x : Csr) (r : Reg)
  | csrr (r : Reg) (x : Csr)
  | sfence
  | jr (r : Reg)
  | sret

section Code

-- the translation of addresses by the page table in `satp`
variable (tr : UInt64 → UInt64 → UInt64)

def Instr.exec (h : Hart) : Instr → Hart
  | .sd r k b => { h with mem := update h.mem (tr (h.csr .satp) (h.reg b + k)) (h.reg r) }
  | .ld r k b => { h with reg := update h.reg r (h.mem (tr (h.csr .satp) (h.reg b + k))) }
  | .addi r b k => { h with reg := update h.reg r (h.reg b + k) }
  | .li r v => { h with reg := update h.reg r v }
  | .csrw x r => { h with csr := update h.csr x (h.reg r) }
  | .csrr r x => { h with reg := update h.reg r (h.csr x) }
  | .sfence => h
  | .jr r => { h with pc := h.reg r }
  | .sret => { h with pc := h.csr .sepc }

def run (is : List Instr) (h : Hart) : Hart := is.foldl (Instr.exec tr) h

end Code

/-- Registers and the offsets at which they are saved. -/
abbrev Table := List (Reg × UInt64)

def save (b : Reg) (t : Table) : List Instr := t.map fun e => .sd e.1 e.2 b

def restore (b : Reg) (t : Table) : List Instr := t.map fun e => .ld e.1 e.2 b

/-! ## The three files -/

def context : Table :=
  [(.ra, 0), (.sp, 8), (.s0, 16), (.s1, 24), (.s2, 32), (.s3, 40), (.s4, 48), (.s5, 56), (.s6, 64),
    (.s7, 72), (.s8, 80), (.s9, 88), (.s10, 96), (.s11, 104)]

def swtch : List Instr := save .a0 context ++ restore .a1 context ++ [.jr .ra]

/-- The registers in `struct trapframe`, but `a0`. -/
def trapframe : Table :=
  [(.ra, 40), (.sp, 48), (.gp, 56), (.tp, 64), (.t0, 72), (.t1, 80), (.t2, 88), (.s0, 96), (.s1, 104),
    (.a1, 120), (.a2, 128), (.a3, 136), (.a4, 144), (.a5, 152), (.a6, 160), (.a7, 168), (.s2, 176),
    (.s3, 184), (.s4, 192), (.s5, 200), (.s6, 208), (.s7, 216), (.s8, 224), (.s9, 232), (.s10, 240),
    (.s11, 248), (.t3, 256), (.t4, 264), (.t5, 272), (.t6, 280)]

def TRAPFRAME : UInt64 := .ofNat Vm.TRAPFRAME

def uservec : List Instr :=
  [.csrw .sscratch .a0, .li .a0 TRAPFRAME] ++ save .a0 trapframe ++
    [.csrr .t0 .sscratch, .sd .t0 112 .a0, .ld .sp 8 .a0, .ld .tp 32 .a0, .ld .t0 16 .a0,
      .ld .t1 0 .a0, .sfence, .csrw .satp .t1, .sfence, .jr .t0]

def userret : List Instr :=
  [.sfence, .csrw .satp .a0, .sfence, .li .a0 TRAPFRAME] ++ restore .a0 trapframe ++
    [.ld .a0 112 .a0, .sret]

/-- The registers that `kernelvec` saves. -/
def interrupted : Table :=
  [(.ra, 0), (.sp, 8), (.gp, 16), (.tp, 24), (.t0, 32), (.t1, 40), (.t2, 48), (.a0, 72), (.a1, 80),
    (.a2, 88), (.a3, 96), (.a4, 104), (.a5, 112), (.a6, 120), (.a7, 128), (.t3, 216), (.t4, 224),
    (.t5, 232), (.t6, 240)]

/-- `kernelvec` up to the call of `kerneltrap`. -/
def kernelvec : List Instr := .addi .sp .sp (-256) :: save .sp interrupted

/-- `kernelvec` after the call; it leaves `tp` alone, which holds the number of the hart. -/
def kernelvecRet : List Instr :=
  restore .sp (interrupted.filter fun e => e.1 ≠ .tp) ++ [.addi .sp .sp 256, .sret]

/-! ## Saving and loading -/

section Tables

variable (tr : UInt64 → UInt64 → UInt64) {b : Reg} {f : UInt64} {v : Reg → UInt64}

theorem run_append (is js : List Instr) (h : Hart) :
    run tr (is ++ js) h = run tr js (run tr is h) :=
  foldl_append

/-- The saved registers are in the memory at `f`, and other memory is as before. -/
theorem run_save {t : Table} (hnd : (t.map Prod.snd).Nodup) (h : Hart)
    (hmap : ∀ e ∈ t, tr (h.csr .satp) (h.reg b + e.2) = f + e.2) :
    ∃ m, run tr (save b t) h = { h with mem := m } ∧ (∀ e ∈ t, m (f + e.2) = h.reg e.1) ∧
      ∀ a, (∀ e ∈ t, a ≠ f + e.2) → m a = h.mem a := by
  induction t generalizing h with
  | nil => exact ⟨h.mem, rfl, by simp, fun _ _ => rfl⟩
  | cons e t ih =>
    rw [map_cons, nodup_cons] at hnd
    let h₁ : Hart := { h with mem := update h.mem (f + e.2) (h.reg e.1) }
    obtain ⟨m, hrun, hin, hout⟩ := ih hnd.2 h₁ fun e' he' => hmap e' (mem_cons_of_mem e he')
    refine ⟨m, ?_, ?_, ?_⟩
    · rw [← hrun, save, map_cons, run, foldl_cons, Instr.exec, hmap e mem_cons_self]
      rfl
    · intro e' he'
      rcases mem_cons.1 he' with rfl | he'
      · -- the saves that follow are at other offsets
        rw [hout _ fun e' he' heq => hnd.1 ?_]
        · exact update_self _ _ _
        · rw [(UInt64.add_right_inj _).1 heq]
          exact mem_map_of_mem he'
      · exact hin e' he'
    · intro a ha
      rw [hout a fun e' he' => ha e' (mem_cons_of_mem e he')]
      exact update_of_ne (ha e mem_cons_self) _ _

/-- The registers are loaded from the memory at `f`.  The base register may be one of them, when it is
loaded with what it holds. -/
theorem run_restore {t : Table} (hnd : (t.map Prod.fst).Nodup) (h : Hart)
    (hmap : ∀ e ∈ t, tr (h.csr .satp) (h.reg b + e.2) = f + e.2)
    (hv : ∀ e ∈ t, h.mem (f + e.2) = v e.1) (hb : b ∈ t.map Prod.fst → v b = h.reg b) :
    ∃ g, run tr (restore b t) h = { h with reg := g } ∧ (∀ e ∈ t, g e.1 = v e.1) ∧
      ∀ r, r ∉ t.map Prod.fst → g r = h.reg r := by
  induction t generalizing h with
  | nil => exact ⟨h.reg, rfl, by simp, fun _ _ => rfl⟩
  | cons e t ih =>
    rw [map_cons, nodup_cons] at hnd
    let h₁ : Hart := { h with reg := update h.reg e.1 (v e.1) }
    have hbase : h₁.reg b = h.reg b := by
      by_cases hbe : b = e.1
      · have hkeep := hb (by simp [hbe])
        subst hbe
        simp [h₁, hkeep]
      · exact update_of_ne hbe _ _
    obtain ⟨g, hrun, hin, hout⟩ := ih hnd.2 h₁
      (fun e' he' => by rw [hbase]; exact hmap e' (mem_cons_of_mem e he'))
      (fun e' he' => hv e' (mem_cons_of_mem e he'))
      (fun hmem => by rw [hbase]; exact hb (mem_cons_of_mem _ hmem))
    refine ⟨g, ?_, ?_, ?_⟩
    · rw [restore, map_cons, run, foldl_cons, Instr.exec, hmap e mem_cons_self,
        hv e mem_cons_self]
      exact hrun
    · intro e' he'
      rcases mem_cons.1 he' with rfl | he'
      · exact (hout _ hnd.1).trans (update_self _ _ _)
      · exact hin e' he'
    · intro r hr
      rw [map_cons, mem_cons, not_or] at hr
      exact (hout r hr.2).trans (update_of_ne hr.1 _ _)

theorem run_swtch (h : Hart)
    (hmap : ∀ r ∈ [Reg.a0, .a1], ∀ e ∈ context, tr (h.csr .satp) (h.reg r + e.2) = h.reg r + e.2)
    (hapart : ∀ e ∈ context, ∀ e' ∈ context, h.reg .a1 + e.2 ≠ h.reg .a0 + e'.2)
    (hv : ∀ e ∈ context, h.mem (h.reg .a1 + e.2) = v e.1) :
    ∃ g m, run tr swtch h = { reg := g, csr := h.csr, pc := v .ra, mem := m } ∧
      (∀ e ∈ context, g e.1 = v e.1) ∧ (∀ e ∈ context, m (h.reg .a0 + e.2) = h.reg e.1) ∧
      ∀ a, (∀ e ∈ context, a ≠ h.reg .a0 + e.2) → m a = h.mem a := by
  obtain ⟨m, hsave, hin, hout⟩ := run_save tr (b := .a0) (t := context) (by decide) h
    (hmap .a0 (by simp))
  obtain ⟨g, hrestore, hg, -⟩ := run_restore tr (b := .a1) (t := context) (v := v) (by decide)
    { h with mem := m } (hmap .a1 (by simp))
    (fun e he => (hout _ (hapart e he)).trans (hv e he)) (fun hmem => absurd hmem (by decide))
  refine ⟨g, m, ?_, hg, hin, hout⟩
  rw [swtch, run_append, run_append, hsave, hrestore, ← hg (.ra, 0) (by decide)]
  rfl

end Tables

/-! ## Threads -/

/-- The harts, and the registers that the threads which `swtch` has left had then, by the address of
their context. -/
structure Threads (n : Nat) where
  core : Fin n → Core
  mem : UInt64 → UInt64
  parked : UInt64 → Option (Reg → UInt64)

/-- What a hart does: a call of `swtch`, or other code, which leaves the hart and the memory as in `h`
and prepares the contexts of `new`. -/
inductive Action
  | code (h : Hart) (new : UInt64 → Option (Reg → UInt64))
  | swtch

section Runs

variable {n : Nat} (tr : UInt64 → UInt64 → UInt64) (C : Set UInt64)

def Threads.hart (s : Threads n) (i : Fin n) : Hart := { s.core i with mem := s.mem }

def Threads.set (s : Threads n) (i : Fin n) (h : Hart) (parked : UInt64 → Option (Reg → UInt64)) :
    Threads n :=
  { core := update s.core i h.toCore, mem := h.mem, parked := parked }

/-- `swtch` goes from a thread that has the hart to one that is parked. -/
def threads (n : Nat) : Machine (Threads n) (Fin n × Action) where
  step s
    | (i, .code h new) => some (s.set i h fun c => (new c).or (s.parked c))
    | (i, .swtch) =>
        let old := (s.core i).reg .a0
        let new := (s.core i).reg .a1
        if s.parked old = none ∧ (s.parked new).isSome then
          some (s.set i (run tr swtch (s.hart i))
            (update (update s.parked old (some (s.core i).reg)) new none))
        else
          none

/-- Code that leaves the contexts of parked threads alone; `swtch` in a page table that maps the
contexts, at `C`, where they are. -/
def Careful : Machine.Guard (Threads n) (Fin n × Action) := fun s a _ =>
  match a.2 with
  | .code h new =>
      (∀ c, (s.parked c).isSome → new c = none ∧ ∀ e ∈ context, h.mem (c + e.2) = s.mem (c + e.2)) ∧
      ∀ c v, new c = some v → c ∈ C ∧ ∀ e ∈ context, h.mem (c + e.2) = v e.1
  | .swtch => (s.core a.1).reg .a0 ∈ C ∧
      ∀ c ∈ C, ∀ e ∈ context, tr ((s.core a.1).csr .satp) (c + e.2) = c + e.2

/-- The contexts hold the registers of the parked threads. -/
def Kept (s : Threads n) : Prop :=
  ∀ c v, s.parked c = some v → c ∈ C ∧ ∀ e ∈ context, s.mem (c + e.2) = v e.1

/-- Contexts do not overlap. -/
def Apart : Prop := ∀ c ∈ C, ∀ c' ∈ C, ∀ e ∈ context, ∀ e' ∈ context, c + e.2 = c' + e'.2 → c = c'

variable {tr C} {s t : Threads n} {i : Fin n}

theorem kept_swtch (hC : Apart C) (h : Kept C s) (hstep : (threads tr n).step s (i, .swtch) = some t)
    (hG : Careful tr C s (i, .swtch) t) :
    Kept C t ∧ ∃ v, s.parked ((s.core i).reg .a1) = some v ∧
      (∀ e ∈ context, (t.core i).reg e.1 = v e.1) ∧ (t.core i).pc = v .ra := by
  obtain ⟨hold, hmap⟩ := hG
  simp only [threads] at hstep
  split at hstep
  · rename_i hparked
    cases hstep
    obtain ⟨v, hv⟩ := Option.isSome_iff_exists.1 hparked.2
    have hnew := h _ v hv
    have hne : (s.core i).reg .a1 ≠ (s.core i).reg .a0 := by
      intro heq
      rw [heq, hparked.1] at hv
      cases hv
    obtain ⟨g, m, hrun, hg, hin, hout⟩ := run_swtch tr (v := v) (s.hart i)
      (by simpa using ⟨fun a b => hmap _ hold (a, b), fun a b => hmap _ hnew.1 (a, b)⟩)
      (fun e he e' he' heq => hne (hC _ hnew.1 _ hold e he e' he' heq)) hnew.2
    rw [hrun]
    refine ⟨?_, v, hv, ?_, ?_⟩
    · intro c w hw
      simp only [Threads.set] at hw ⊢
      by_cases hcnew : c = (s.core i).reg .a1
      · rw [hcnew, update_self] at hw
        cases hw
      rw [update_of_ne hcnew] at hw
      by_cases hcold : c = (s.core i).reg .a0
      · subst hcold
        rw [update_self] at hw
        cases hw
        exact ⟨hold, hin⟩
      · rw [update_of_ne hcold] at hw
        obtain ⟨hc, hmem⟩ := h c w hw
        refine ⟨hc, fun e he => ?_⟩
        rw [hout _ fun e' he' heq => hcold (hC _ hc _ hold e he e' he' heq)]
        exact hmem e he
    · intro e he
      simp only [Threads.set, update_self]
      exact hg e he
    · simp only [Threads.set, update_self]
  · cases hstep

theorem kept_code {h' : Hart} {new : UInt64 → Option (Reg → UInt64)} (h : Kept C s)
    (hstep : (threads tr n).step s (i, .code h' new) = some t)
    (hG : Careful tr C s (i, .code h' new) t) : Kept C t := by
  cases hstep
  intro c v hv
  simp only [Threads.set] at hv ⊢
  cases hc : s.parked c with
  | none =>
    rw [hc, Option.or_none] at hv
    exact hG.2 c v hv
  | some w =>
    obtain ⟨hnone, hmem⟩ := hG.1 c (by simp [hc])
    rw [hnone, hc, Option.none_or] at hv
    cases hv
    obtain ⟨hin, hold⟩ := h c _ hc
    exact ⟨hin, fun e he => (hmem e he).trans (hold e he)⟩

/-- Over any run of the kernel from its start, on any number of harts: the thread that a hart
switches to goes on with the stack, the callee-saved registers and the return address that it had when
it called `swtch`, or that were prepared for it. -/
theorem swtch_resumes {u : Threads n} (hC : Apart C) (hstart : ∀ c, s.parked c = none)
    (hrun : (threads tr n).Path (Careful tr C) s t)
    (hstep : (threads tr n).step t (i, .swtch) = some u) (hG : Careful tr C t (i, .swtch) u) :
    ∃ v, t.parked ((t.core i).reg .a1) = some v ∧
      (∀ e ∈ context, (u.core i).reg e.1 = v e.1) ∧ (u.core i).pc = v .ra := by
  have hkept : Kept C t := by
    refine hrun.invariant (fun c v hv => absurd hv (by simp [hstart])) ?_
    rintro s ⟨j, _ | _⟩ t hs hstep hG
    · exact kept_code hs hstep hG
    · exact (kept_swtch hC hs hstep hG).1
  exact (kept_swtch hC hkept hstep hG).2

/-- A context is prepared at 8192, and the thread whose context is at 4096 switches to it. -/
theorem swtch_resumes_first : ∃ t u : Threads 1,
    (threads (fun _ a => a) 1).step t (0, .swtch) = some u ∧
      ∀ e ∈ context, (u.core 0).reg e.1 = 7 := by
  let tr : UInt64 → UInt64 → UInt64 := fun _ a => a
  let h : Hart := ⟨⟨fun r => if r = .a0 then 4096 else 8192, fun _ => 0, 0⟩, fun _ => 7⟩
  let new : UInt64 → Option (Reg → UInt64) := fun c => if c = 8192 then some fun _ => 7 else none
  let s : Threads 1 := ⟨fun _ => h.toCore, h.mem, fun _ => none⟩
  let t : Threads 1 := s.set 0 h fun c => (new c).or none
  let C : Set UInt64 := {4096, 8192}
  have hC : Apart C := by
    rintro c (rfl | rfl) c' (rfl | rfl) <;> first | exact fun _ _ _ _ _ => rfl | decide
  have hrun : (threads tr 1).Path (Careful tr C) s t := by
    refine Machine.Path.head (a := (0, .code h new)) rfl ⟨by simp [s], ?_⟩ (Machine.Path.refl t)
    intro c v hv
    by_cases hc : c = 8192
    · simp only [new, if_pos hc, Option.some.injEq] at hv
      exact ⟨.inr hc, fun e _ => by rw [← hv]⟩
    · simp [new, hc] at hv
  have hG : Careful tr C t (0, .swtch) t := ⟨.inl rfl, fun _ _ _ _ => rfl⟩
  have hstep : ∃ u, (threads tr 1).step t (0, .swtch) = some u := ⟨_, rfl⟩
  obtain ⟨u, hu⟩ := hstep
  obtain ⟨v, hv, hregs, -⟩ := swtch_resumes hC (fun _ => rfl) hrun hu hG
  cases hv
  exact ⟨t, u, hu, hregs⟩

end Runs

/-! ## Traps -/

/-- All registers of user code. -/
def user : Table := (.a0, 112) :: trapframe

/-- The kernel is entered from user code `h`: the trapframe, at `f`, has the registers, and says where
the kernel goes on, with which stack and which page table. -/
structure Entered (h u : Hart) (f : UInt64) : Prop where
  saved : ∀ e ∈ user, u.mem (f + e.2) = h.reg e.1
  rest : ∀ a, (∀ e ∈ user, a ≠ f + e.2) → u.mem a = h.mem a
  satp : u.csr .satp = h.mem f
  sp : u.reg .sp = h.mem (f + 8)
  trap : u.pc = h.mem (f + 16)
  hartid : u.reg .tp = h.mem (f + 32)

section Traps

variable (tr : UInt64 → UInt64 → UInt64) {f : UInt64}

theorem user_all (r : Reg) : ∃ e ∈ user, e.1 = r := by
  cases r <;> decide

theorem trapframe_lt : ∀ e ∈ trapframe, e.2 < 288 := by
  decide

theorem trapframe_ne : ∀ e ∈ trapframe, e.1 ≠ .a0 ∧ e.2 ≠ 112 := by
  decide

theorem run_uservec (h : Hart) (hmap : ∀ k < 288, tr (h.csr .satp) (TRAPFRAME + k) = f + k) :
    Entered h (run tr uservec h) f := by
  let h₁ : Hart := { h with
    reg := update h.reg .a0 TRAPFRAME
    csr := update h.csr .sscratch (h.reg .a0) }
  obtain ⟨m, hsave, hin, hout⟩ := run_save tr (b := .a0) (f := f) (t := trapframe)
    (by decide) h₁ fun e he => by simpa [h₁] using hmap e.2 (trapframe_lt e he)
  let m' := update m (f + 112) (h.reg .a0)
  have hzero : tr (h.csr .satp) TRAPFRAME = f := by simpa using hmap 0 (by decide)
  have hrun : (run tr uservec h).mem = m' ∧ (run tr uservec h).csr .satp = m' f ∧
      (run tr uservec h).reg .sp = m' (f + 8) ∧ (run tr uservec h).pc = m' (f + 16) ∧
      (run tr uservec h).reg .tp = m' (f + 32) := by
    have hfirst : run tr [.csrw .sscratch .a0, .li .a0 TRAPFRAME] h = h₁ := rfl
    rw [uservec, run_append, run_append, hfirst, hsave]
    simp [run, Instr.exec, h₁, hmap, hzero, m']
  have hrest : ∀ a, (∀ e ∈ user, a ≠ f + e.2) → m' a = h.mem a := by
    intro a ha
    have hold := hout a fun e he => ha e (mem_cons_of_mem _ he)
    exact (update_of_ne (ha (.a0, 112) mem_cons_self) _ _).trans hold
  -- the first five words of the trapframe are not registers
  have hword : ∀ k, k ∉ user.map Prod.snd → m' (f + k) = h.mem (f + k) := by
    intro k hk
    refine hrest _ fun e he heq => hk ?_
    rw [(UInt64.add_right_inj _).1 heq]
    exact mem_map_of_mem he
  obtain ⟨hmem, hsatp, hsp, hpc, htp⟩ := hrun
  refine ⟨fun e he => ?_, fun a ha => by rw [hmem, hrest a ha], ?_, ?_, ?_, ?_⟩
  · rw [hmem]
    rcases mem_cons.1 he with rfl | he
    · exact update_self _ _ _
    · have hne : f + e.2 ≠ f + 112 :=
        fun heq => (trapframe_ne e he).2 ((UInt64.add_right_inj _).1 heq)
      exact (update_of_ne hne _ _).trans ((hin e he).trans (update_of_ne (trapframe_ne e he).1 _ _))
  · rw [hsatp]
    simpa using hword 0 (by decide)
  · rw [hsp, hword 8 (by decide)]
  · rw [hpc, hword 16 (by decide)]
  · rw [htp, hword 32 (by decide)]

theorem run_userret (h : Hart) {v : Reg → UInt64}
    (hmap : ∀ k < 288, tr (h.reg .a0) (TRAPFRAME + k) = f + k)
    (hv : ∀ e ∈ user, h.mem (f + e.2) = v e.1) :
    (run tr userret h).reg = v ∧ (run tr userret h).csr .satp = h.reg .a0 ∧
      (run tr userret h).pc = h.csr .sepc := by
  let h₁ : Hart := { h with
    reg := update h.reg .a0 TRAPFRAME
    csr := update h.csr .satp (h.reg .a0) }
  obtain ⟨g, hrestore, hg, hout⟩ := run_restore tr (b := .a0) (f := f) (t := trapframe) (v := v)
    (by decide) h₁ (fun e he => by simpa [h₁] using hmap e.2 (trapframe_lt e he))
    (fun e he => hv e (mem_cons_of_mem _ he)) (fun hmem => absurd hmem (by decide))
  have ha0 : g .a0 = TRAPFRAME := by simpa [h₁] using hout .a0 (by decide)
  have hlast : h.mem (f + 112) = v .a0 := hv (.a0, 112) mem_cons_self
  have hrun : run tr userret h = { h₁ with reg := update g .a0 (v .a0), pc := h.csr .sepc } := by
    have hfirst : run tr [.sfence, .csrw .satp .a0, .sfence, .li .a0 TRAPFRAME] h = h₁ := rfl
    rw [userret, run_append, run_append, hfirst, hrestore]
    simp [run, Instr.exec, ha0, h₁, hmap, hlast]
  rw [hrun]
  refine ⟨funext fun r => ?_, by simp [h₁], rfl⟩
  obtain ⟨e, he, rfl⟩ := user_all r
  rcases mem_cons.1 he with rfl | he
  · simp
  · exact (update_of_ne (trapframe_ne e he).1 _ _).trans (hg e he)

/-- From user space into the kernel and back.  If the kernel changes no register of the trapframe but
`a0`, for the result of a system call, then user code goes on with its registers and that `a0`. -/
theorem trap_round_trip (h : Hart) (hmap : ∀ k < 288, tr (h.csr .satp) (TRAPFRAME + k) = f + k) :
    Entered h (run tr uservec h) f ∧ ∀ u : Hart, u.reg .a0 = h.csr .satp →
      (∀ e ∈ trapframe, u.mem (f + e.2) = (run tr uservec h).mem (f + e.2)) →
      (run tr userret u).reg = update h.reg .a0 (u.mem (f + 112)) ∧
        (run tr userret u).csr .satp = h.csr .satp ∧ (run tr userret u).pc = u.csr .sepc := by
  have henter := run_uservec tr h hmap
  refine ⟨henter, fun u ha hkeep => ?_⟩
  rw [← ha] at hmap ⊢
  refine run_userret tr u hmap fun e he => ?_
  rcases mem_cons.1 he with rfl | he'
  · simp
  · rw [hkeep e he', henter.saved e he, update_of_ne (trapframe_ne e he').1]

theorem trap_round_trip_idle : let h : Hart := ⟨⟨fun _ => 1, fun _ => 0, 0⟩, fun _ => 7⟩
    let u := run (fun _ a => a) uservec h
    (run (fun _ a => a) userret { u with reg := update u.reg .a0 0 }).reg = fun _ => 1 := by
  intro h u
  have htrip := trap_round_trip (fun _ a => a) (f := TRAPFRAME) h fun _ _ => rfl
  rw [(htrip.2 { u with reg := update u.reg .a0 0 } (by simp [h]) fun _ _ => rfl).1,
    htrip.1.saved (.a0, 112) (by decide)]
  exact update_eq_self _ _

/-- An interrupt in the kernel.  `kerneltrap` returns on some hart, as `u`, with the stack pointer and
the callee-saved registers that it was called with, and leaves the saved registers alone: then the
interrupted code goes on with its registers, on that hart. -/
theorem kernelvec_transparent (h u : Hart)
    (hmap : ∀ q ∈ [h.csr .satp, u.csr .satp], ∀ k < 256, tr q (h.reg .sp - 256 + k) = f + k)
    (hsp : u.reg .sp = (run tr kernelvec h).reg .sp)
    (hcallee : ∀ e ∈ context, e.1 ≠ .ra → u.reg e.1 = (run tr kernelvec h).reg e.1)
    (hkeep : ∀ e ∈ interrupted, u.mem (f + e.2) = (run tr kernelvec h).mem (f + e.2)) :
    (∀ r, r ≠ .tp → (run tr kernelvecRet u).reg r = h.reg r) ∧
      (run tr kernelvecRet u).reg .tp = u.reg .tp ∧ (run tr kernelvecRet u).pc = u.csr .sepc := by
  let h₁ : Hart := { h with reg := update h.reg .sp (h.reg .sp - 256) }
  have hlt : ∀ e ∈ interrupted, e.2 < 256 := by decide
  obtain ⟨m, hsave, hin, -⟩ := run_save tr (b := .sp) (f := f) (t := interrupted)
    (by decide) h₁ fun e he => by simpa [h₁] using hmap _ (by simp) e.2 (hlt e he)
  have henter : run tr kernelvec h = { h₁ with mem := m } := by
    rw [← hsave, kernelvec, run, foldl_cons, Instr.exec, ← UInt64.sub_eq_add_neg]
    rfl
  simp only [henter] at hsp hcallee hkeep
  obtain ⟨g, hrestore, hg, hout⟩ := run_restore tr (b := .sp) (f := f)
    (t := interrupted.filter fun e => e.1 ≠ .tp) (v := h₁.reg) (by decide) u
    (fun e he => by
      rw [hsp]
      simpa [h₁] using hmap _ (by simp) e.2 (hlt e (mem_filter.1 he).1))
    (fun e he => (hkeep e (mem_filter.1 he).1).trans (hin e (mem_filter.1 he).1))
    (fun _ => hsp.symm)
  have hret : run tr kernelvecRet u =
      { u with reg := update g .sp (g .sp + 256), pc := u.csr .sepc } := by
    rw [kernelvecRet, run_append, hrestore]
    rfl
  have hbase : g .sp + 256 = h.reg .sp := by
    rw [hg (.sp, 8) (by decide)]
    simp [h₁]
  rw [hret]
  refine ⟨fun r hr => ?_, ?_, rfl⟩
  · by_cases hrsp : r = .sp
    · subst hrsp
      simpa using hbase
    have hsame : g r = h₁.reg r := by
      by_cases hmem : r ∈ (interrupted.filter fun e => e.1 ≠ .tp).map Prod.fst
      · obtain ⟨e, he, rfl⟩ := mem_map.1 hmem
        exact hg e he
      · -- the other registers are callee-saved
        have hother : ∃ e ∈ context, e.1 ≠ .ra ∧ e.1 = r := by
          revert hr hmem
          cases r <;> decide
        obtain ⟨e, he, hra, rfl⟩ := hother
        exact (hout _ hmem).trans (hcallee e he hra)
    exact (update_of_ne hrsp _ _).trans (hsame.trans (update_of_ne hrsp _ _))
  · simpa using hout .tp (by decide)

theorem kernelvec_transparent_moved : let h : Hart := ⟨⟨fun _ => 4096, fun _ => 0, 0⟩, fun _ => 0⟩
    let u := run (fun _ a => a) kernelvec h
    let u' : Hart := { u with reg := update u.reg .tp 1 }
    ∀ r, r ≠ .tp → (run (fun _ a => a) kernelvecRet u').reg r = 4096 := by
  intro h u u'
  have hne : ∀ e ∈ context, e.1 ≠ .tp := by decide
  have hreg : ∀ e ∈ context, u'.reg e.1 = u.reg e.1 := fun e he => update_of_ne (hne e he) _ _
  exact (kernelvec_transparent (fun _ a => a) (f := 4096 - 256) h u' (fun _ _ _ _ => rfl)
    (hreg (.sp, 8) (by decide)) (fun e he _ => hreg e he) (fun _ _ => rfl)).1

end Traps

end Xv6Schedulers.Asm

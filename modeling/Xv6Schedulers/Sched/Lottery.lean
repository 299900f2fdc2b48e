import Mathlib.Data.Int.CardIntervalMod
import Xv6Schedulers.Kernel.Proc
import Xv6Schedulers.Lib.Congruential

/-!
# Lottery — how often each class is drawn

`rand_lottery` returns bits 16 to 30 of `seed`, so the low 31 bits decide, and on these `seed` is a
linear congruential generator of full period: in `2 ^ 31` consecutive calls every value below 32768
is returned `2 ^ 16` times, whatever `seed` is at the start.  `sorteio_prioridade` reduces the value
modulo 12, which does not divide 32768, so the shares of the classes are not exactly 6, 3, 2 and 1
twelfths.
-/

namespace Xv6Schedulers.Sched

open Kernel Lib Function Finset

/-- How many of `n` consecutive calls of a function of `seed` return `v`. -/
def times {α : Type} [DecidableEq α] (f : UInt32 → α × UInt32) (n : Nat) (seed : UInt32) (v : α) :
    Nat :=
  ((range n).filter fun k => (f ((fun s => (f s).2)^[k] seed)).1 = v).card

/-! ## The low bits of `seed` -/

/-- The residue of `seed` that the returned values depend on. -/
def low (seed : UInt32) : ZMod (2 ^ 31) := (seed.toNat : ZMod (2 ^ 31))

theorem val_low (seed : UInt32) : (low seed).val = seed.toNat % 2 ^ 31 := ZMod.val_natCast _ _

theorem low_step (seed : UInt32) : low (randLottery seed).2 =
      Congruential.next ((1103515245 : Nat) : ZMod (2 ^ 31)) (1248345 : Nat) (low seed) := by
  have hstep : (randLottery seed).2.toNat = (1103515245 * seed.toNat + 1248345) % 2 ^ 32 := by
    show (seed * 1103515245 + 1248345).toNat = _
    rw [UInt32.toNat_add, UInt32.toNat_mul, Nat.mod_add_mod, Nat.mul_comm]
    rfl
  have hmod : (randLottery seed).2.toNat ≡ 1103515245 * seed.toNat + 1248345 [MOD 2 ^ 31] := by
    rw [hstep]
    exact (Nat.mod_modEq _ _).of_dvd (by decide)
  have hcast := (ZMod.natCast_eq_natCast_iff _ _ _).2 hmod
  rw [Nat.cast_add, Nat.cast_mul] at hcast
  exact hcast

theorem low_iterate (seed : UInt32) (k : Nat) : low ((fun s => (randLottery s).2)^[k] seed) =
      (Congruential.next ((1103515245 : Nat) : ZMod (2 ^ 31)) (1248345 : Nat))^[k] (low seed) := by
  induction k generalizing seed with
  | zero => rfl
  | succ k ih =>
    rw [iterate_succ_apply, iterate_succ_apply, ih, low_step]

theorem randLottery_value (seed : UInt32) :
    (randLottery seed).1.toNat = (low (randLottery seed).2).val / 65536 := by
  rw [val_low]
  show (((randLottery seed).2 / 65536) % 32768).toNat = _
  rw [UInt32.toNat_mod, UInt32.toNat_div]
  show (randLottery seed).2.toNat / 65536 % 32768 = _
  omega

theorem card_calls (seed : UInt32) (P : Nat → Prop) [DecidablePred P] :
    ((range (2 ^ 31)).filter fun k =>
      P (randLottery ((fun s => (randLottery s).2)^[k] seed)).1.toNat).card =
      ((range (2 ^ 31)).filter fun n => P (n / 65536)).card := by
  rw [← Congruential.card_filter_iterate (m := 30) (a := 1103515245) (c := 1248345) (by decide)
    (by decide) (low (randLottery seed).2) fun n => P (n / 65536)]
  refine congrArg card (filter_congr fun k _ => ?_)
  have hshift : (randLottery ((fun s => (randLottery s).2)^[k] seed)).2 =
      (fun s => (randLottery s).2)^[k] (randLottery seed).2 :=
    (iterate_succ_apply' (fun s => (randLottery s).2) k seed).symm.trans
      (iterate_succ_apply _ k seed)
  rw [randLottery_value, hshift, low_iterate]

/-! ## Counting residues -/

theorem card_value (v : Nat) (hv : v < 32768) :
    ((range (2 ^ 31)).filter fun n => n / 65536 = v).card = 2 ^ 16 := by
  have hset : ((range (2 ^ 31)).filter fun n => n / 65536 = v) =
      Ico (v * 65536) ((v + 1) * 65536) := by
    ext n
    rw [mem_filter, mem_range, mem_Ico]
    omega
  rw [hset, Nat.card_Ico]
  omega

theorem card_of_values (P : Nat → Prop) [DecidablePred P] :
    ((range (2 ^ 31)).filter fun n => P (n / 65536)).card =
      ((range 32768).filter P).card * 2 ^ 16 := by
  have hmaps : Set.MapsTo (fun n => n / 65536)
      ((range (2 ^ 31)).filter fun n => P (n / 65536)) ((range 32768).filter P) := by
    intro n hn
    rcases mem_filter.1 hn with ⟨hlt, hP⟩
    rw [mem_range] at hlt
    refine mem_filter.2 ⟨mem_range.2 ?_, hP⟩
    show n / 65536 < 32768
    omega
  rw [card_eq_sum_card_fiberwise hmaps, ← smul_eq_mul, ← sum_const]
  refine sum_congr rfl fun v hv => ?_
  rcases mem_filter.1 hv with ⟨hlt, hP⟩
  rw [← card_value v (mem_range.1 hlt), filter_filter]
  refine congrArg card (filter_congr fun n _ => ?_)
  constructor
  · exact fun h => h.2
  · intro heq
    exact ⟨by rwa [heq], heq⟩

/-- The class that `sorteio_prioridade` draws for a value of `rand_lottery`. -/
def classeOf (r : Nat) : Classe :=
  if r % 12 < 6 then .class0
  else if r % 12 < 9 then .class1
  else if r % 12 < 11 then .class2
  else .class3

theorem sorteioPrioridade_eq (seed : UInt32) :
    sorteioPrioridade seed = (classeOf (randLottery seed).1.toNat, (randLottery seed).2) := by
  have hmod : ∀ x : UInt32, (randLottery seed).1 % (6 + 3 + 2 + 1) < x ↔
      (randLottery seed).1.toNat % 12 < x.toNat := by
    intro x
    rw [UInt32.lt_iff_toNat_lt, UInt32.toNat_mod]
    rfl
  simp only [sorteioPrioridade, hmod, classeOf]
  show (if _ % 12 < 6 then _ else if _ % 12 < 9 then _ else if _ % 12 < 11 then _ else _) = _
  split
  · rfl
  · split
    · rfl
    · split
      · rfl
      · rfl

theorem card_residue (r : Nat) (hr : r < 12) :
    ((range 32768).filter fun v => v % 12 = r).card = 2730 + if r < 8 then 1 else 0 := by
  have hcount := Nat.count_modEq_card 32768 (r := 12) (by decide) r
  rw [Nat.count_eq_card_filter_range, Nat.mod_eq_of_lt hr] at hcount
  rw [← show 32768 / 12 = 2730 from rfl, ← show 32768 % 12 = 8 from rfl, ← hcount]
  refine congrArg card (filter_congr fun v _ => ?_)
  rw [Nat.ModEq, Nat.mod_eq_of_lt hr]

theorem card_classe (cl : Classe) : ((range 32768).filter fun v => classeOf v = cl).card =
      ∑ r ∈ (range 12).filter fun r => classeOf r = cl, (2730 + if r < 8 then 1 else 0) := by
  have hclasse : ∀ v, classeOf (v % 12) = classeOf v := by
    intro v
    rw [classeOf, classeOf, Nat.mod_mod]
  have hmaps : Set.MapsTo (fun v => v % 12)
      ((range 32768).filter fun v => classeOf v = cl)
      ((range 12).filter fun r => classeOf r = cl) := by
    intro v hv
    refine mem_filter.2 ⟨mem_range.2 (Nat.mod_lt _ (by decide)), ?_⟩
    exact (hclasse v).trans (mem_filter.1 hv).2
  rw [card_eq_sum_card_fiberwise hmaps]
  refine sum_congr rfl fun r hr => ?_
  rcases mem_filter.1 hr with ⟨hlt, hcl⟩
  rw [← card_residue r (mem_range.1 hlt), filter_filter]
  refine congrArg card (filter_congr fun v _ => ?_)
  constructor
  · exact fun h => h.2
  · intro heq
    refine ⟨?_, heq⟩
    rw [← hclasse v, heq]
    exact hcl

/-! ## The draws of a period -/

/-- The number of values below 32768 for which a class is drawn. -/
def Classe.share : Classe → Nat
  | .class0 => 16386
  | .class1 => 8192
  | .class2 => 5460
  | .class3 => 2730

/-- In `2 ^ 31` consecutive calls `rand_lottery` returns every value equally often, and
`sorteio_prioridade` draws each class a fixed number of times. -/
theorem lottery_period (seed : UInt32) :
    (∀ v : Fin 32768, times randLottery (2 ^ 31) seed (UInt32.ofNat v.val) = 2 ^ 16) ∧
    ∀ cl : Classe, times sorteioPrioridade (2 ^ 31) seed cl = Classe.share cl * 2 ^ 16 ∧
      0 < times sorteioPrioridade (2 ^ 31) seed cl := by
  have hvalue : ∀ v : Fin 32768, times randLottery (2 ^ 31) seed (UInt32.ofNat v.val) = 2 ^ 16 := by
    intro v
    rw [← card_value v.val v.isLt, ← card_calls seed fun r => r = v.val]
    refine congrArg card (filter_congr fun k _ => ?_)
    have hval : (UInt32.ofNat v.val).toNat = v.val :=
      UInt32.toNat_ofNat_of_lt' (Nat.lt_trans v.isLt (by decide))
    rw [← UInt32.toNat_inj, hval]
  have hclasse : ∀ cl, times sorteioPrioridade (2 ^ 31) seed cl = Classe.share cl * 2 ^ 16 := by
    intro cl
    have hseed : (fun s => (sorteioPrioridade s).2) = fun s => (randLottery s).2 := by
      funext s
      rw [sorteioPrioridade_eq]
    have hcalls : times sorteioPrioridade (2 ^ 31) seed cl =
        ((range 32768).filter fun v => classeOf v = cl).card * 2 ^ 16 := by
      rw [← card_of_values, ← card_calls seed fun r => classeOf r = cl, times, hseed]
      refine congrArg card (filter_congr fun k _ => ?_)
      rw [sorteioPrioridade_eq]
    rw [hcalls, card_classe]
    cases cl with
    | class0 => rfl
    | class1 => rfl
    | class2 => rfl
    | class3 => rfl
  refine ⟨hvalue, fun cl => ⟨hclasse cl, ?_⟩⟩
  rw [hclasse cl]
  cases cl with
  | class0 => decide
  | class1 => decide
  | class2 => decide
  | class3 => decide

end Xv6Schedulers.Sched

import Xv6Schedulers.Vm.Tasks
import Xv6Schedulers.Vm.UserMemory

/-!
# Grow — `growproc` does what was asked or nothing

* `SamePages m root m' n`: the first `n` pages have the entries and the contents they had.
* `growproc_exact`: what `growproc` returns and does when the new size is not negative.
* `growproc_ignores`: a request for less than nothing is granted and nothing happens.
-/

namespace Xv6Schedulers.Vm

open Lib Exec Kernel

/-- The first `n` pages have the entries and the contents they had. -/
def SamePages (m : Memory) (root : Nat) (m' : Memory) (n : Nat) : Prop :=
  ∀ a, a / PGSIZE < n → leafPte m' root a = leafPte m root a ∧
    m'.page (frame m root a) = m.page (frame m root a)

section Pages

variable {m m' : Memory} {root : Nat} {t t' : Table 2} {a : Nat}

theorem samePages_of_moves {own own' : Owners} (h : Tree m root t) (h' : Tree m' root t')
    (ha : Apart m fun q => t.holds q) (ha' : Apart m' fun q => t'.holds q)
    (hm : Moves m own m' own') (hapart : Apart m fun q => own q + (frames t 0 a).count q)
    (hentry : ∀ u < a, entry t' u = entry t u) : SamePages m root m' a := by
  intro x hx
  refine ⟨?_, hm.keeps hapart ?_⟩
  · rw [leafPte_eq h' ha', leafPte_eq h ha]
    exact hentry _ hx
  · rw [frame, leafPte_eq h ha]
    exact frame_count_pos (Nat.zero_le _) (by omega)

end Pages

/-! ## `growproc` -/

theorem toNat_extend (n : Int32) : (n.toInt64.toUInt64.toNat : Int) = n.toInt % 2 ^ 64 := by
  have hext : n.toInt64.toInt = n.toInt := Int32.toInt_toInt64 n
  have hlt := n.toInt64.toBitVec.isLt
  rw [← hext]
  show (n.toInt64.toBitVec.toNat : Int) = n.toInt64.toBitVec.toInt % ((2 ^ 64 : Nat) : Int)
  rw [BitVec.toInt_eq_toNat_bmod, Int.bmod_emod]
  omega

theorem toNat_newsz {sz : UInt64} {n : Int32} (hsmall : sz.toNat < 2 ^ 63)
    (hn : 0 ≤ (sz.toNat : Int) + n.toInt) :
    ((sz + n.toInt64.toUInt64).toNat : Int) = sz.toNat + n.toInt := by
  have hext := toNat_extend n
  have hle := Int32.toInt_lt n
  have hge := Int32.le_toInt n
  rw [UInt64.toNat_add]
  omega

section Growproc

variable {s : System} {root : Nat} {n : Int32}

/-- `growproc` changed nothing that the process can see. -/
structure Refused (s : System) (root : Nat) (s' : System) : Prop where
  task : s'.task = s.task
  space : AddressSpace s'.mem root (s.task s.cur).sz.toNat
  entries : ∀ a < MAXVA, leafPte s'.mem root a = leafPte s.mem root a
  pages : SamePages s.mem root s'.mem (pages (s.task s.cur).sz.toNat)

/-- The process has the size `sz`, and the pages below both sizes are as they were. -/
structure Resized (s : System) (root : Nat) (sz : UInt64) (s' : System) : Prop where
  task : s'.task = Function.update s.task s.cur { s.task s.cur with sz := sz }
  space : AddressSpace s'.mem root sz.toNat
  pages : SamePages s.mem root s'.mem (min (pages (s.task s.cur).sz.toNat) (pages sz.toNat))

theorem onMem_ends {E : Prop} {α : Type} {x : Code α} {Q : α → Memory → Prop} (h : Ends E x Q s.mem) :
    Ends E (onMem x) (fun a s' => ∃ m, s' = { s with mem := m } ∧ Q a m) s :=
  h.within

theorem myproc_eq (s : System) : myproc s = .ok (s.cur, s) := rfl

theorem getTask_eq (s : System) (i : Slot) : getTask i s = .ok (s.task i, s) := rfl

theorem growproc_grow (hpt : (s.task s.cur).pagetable = some root)
    (hspace : AddressSpace s.mem root (s.task s.cur).sz.toNat) (hn : 0 < n) :
    Ends False (growproc n) (fun r s' => (r = -1 ∧ Refused s root s') ∨
      r = 0 ∧ Resized s root ((s.task s.cur).sz + n.toInt64.toUInt64) s' ∧
        s'.mem.kernelEnd = s.mem.kernelEnd) s := by
  obtain ⟨t, htree, hs, ha⟩ := hspace
  have hpos : 0 < n.toInt := Int32.lt_iff_toInt_lt.1 hn
  have hsmall := lt_of_pages hs.fits
  have hsum := toNat_newsz hsmall (n := n) (by omega)
  have hphys := pages_le_phystop ha
  generalize hnew : (s.task s.cur).sz + n.toInt64.toUInt64 = newsz at hsum ⊢
  have hle : (s.task s.cur).sz.toNat ≤ newsz.toNat := by omega
  have hpages := pages_mono hle
  have htop : pages newsz.toNat ≤ TOP := by
    have hmax := Int32.toInt_lt n
    have hstop : PHYSTOP = 0x88000 := rfl
    have htop : TOP = 0x3fffffe := rfl
    simp only [pages, PGSIZE] at *
    omega
  have happ : Apart s.mem fun q => t.holds q := ha.mono fun q => Nat.le_add_right _ _
  have hspec : Ends False _ _ s.mem :=
    uvmalloc_spec htree (by decide : PTE_W.toNat < 1024) hle hs.fits (Or.inl htop)
      (fun u hge hlt => hs.high u hge hlt) happ
  unfold growproc
  refine Ends.step (read_apply _ _) (Ends.step (read_apply _ _) ?_)
  rw [if_pos hn, hpt, hnew]
  refine Ends.step (pure_apply root s) ((onMem_ends hspec).seq ?_)
  rintro r _ ⟨m', rfl, b, t', hr, hA⟩
  have hadd : pages (s.task s.cur).sz.toNat + (pages newsz.toNat - pages (s.task s.cur).sz.toNat) =
      pages newsz.toNat := Nat.add_sub_of_le hpages
  cases b with
  | false =>
    rw [hr]
    have hmoves : Moves s.mem (fun q => t.holds q) m' fun q => t'.holds q := by
      refine (hA.back rfl).congr (fun q => ?_) fun _ => rfl
      rw [Nat.sub_self]
      rfl
    have hentry : ∀ u < SLOTS, entry t' u = entry t u := by
      intro u hu
      rw [hA.clear rfl u hu, if_neg (by omega)]
    have happ' := happ.moves hmoves
    refine Ends.ret (Or.inl ⟨rfl, rfl, ⟨t', hA.tree, hs.congr hentry, ha.tables hs hmoves hentry⟩,
      fun x hx => ?_, ?_⟩)
    · rw [leafPte_eq hA.tree happ', leafPte_eq htree happ]
      exact hentry _ (page_lt hx)
    · exact samePages_of_moves htree hA.tree happ happ' hmoves ha
        fun u hu => hentry u (hs.lt_slots hu)
  | true =>
    have hnz : newsz.toNat ≠ 0 := by omega
    have hperm : (PTE_R ||| PTE_U ||| PTE_W).toNat < 1024 := by decide
    have hspace' := hs.grow hA (fun _ => hperm) (fun _ _ _ => by decide) (by omega)
    have hapart' := ha.grow hs hA
    rw [hadd] at hspace' hapart'
    rw [hr, if_pos rfl, if_neg hnz]
    refine Ends.step (modify_apply _ _) (Ends.ret (Or.inr ⟨rfl, ⟨?_, ?_, ?_⟩,
      (hA.moves rfl).kernelEnd⟩))
    · rw [UInt64.ofNat_toNat]
      rfl
    · exact ⟨t', hA.tree, hspace', hapart'⟩
    · rw [Nat.min_eq_left hpages]
      exact samePages_of_moves htree hA.tree happ (hapart'.mono fun q => Nat.le_add_right _ _)
        (hA.moves rfl) ha fun u hu => hA.same rfl u (hs.lt_slots hu) (Or.inl hu)

theorem growproc_shrink (hpt : (s.task s.cur).pagetable = some root)
    (hspace : AddressSpace s.mem root (s.task s.cur).sz.toNat) (hn : n < 0)
    (hsize : 0 ≤ ((s.task s.cur).sz.toNat : Int) + n.toInt) :
    Ends False (growproc n) (fun r s' =>
      r = 0 ∧ Resized s root ((s.task s.cur).sz + n.toInt64.toUInt64) s') s := by
  obtain ⟨t, htree, hs, ha⟩ := hspace
  have hneg : n.toInt < 0 := Int32.lt_iff_toInt_lt.1 hn
  have hsum := toNat_newsz (lt_of_pages hs.fits) hsize
  generalize hnew : (s.task s.cur).sz + n.toInt64.toUInt64 = newsz at hsum ⊢
  have hle : newsz.toNat ≤ (s.task s.cur).sz.toNat := by omega
  have hpages := pages_mono hle
  have hadd : pages newsz.toNat + (pages (s.task s.cur).sz.toNat - pages newsz.toNat) =
      pages (s.task s.cur).sz.toNat := Nat.add_sub_of_le hpages
  have happ : Apart s.mem fun q => t.holds q := ha.mono fun q => Nat.le_add_right _ _
  have hs' := hs
  have ha' := ha
  rw [← hadd] at hs' ha'
  have hspec : Ends False _ _ s.mem := uvmdealloc_spec htree hle hs.fits
    (fun u _ hlt => hs.low u hlt) (ha'.mono fun q => by rw [spaceOwn_add]; omega)
  have hpos : ¬ 0 < n := Int32.lt_asymm hn
  unfold growproc
  refine Ends.step (read_apply _ _) (Ends.step (read_apply _ _) ?_)
  rw [if_neg hpos, if_pos hn, hpt, hnew]
  refine Ends.step (pure_apply root s) ((onMem_ends hspec).seq ?_)
  rintro r _ ⟨m', rfl, rfl, t', htree', hmoves, -, hentry⟩
  rw [← hadd] at hentry
  have hapart' := ha'.shrink hs' hmoves hentry
  refine Ends.step (modify_apply _ _) (Ends.ret ⟨rfl, ?_, ?_, ?_⟩)
  · rw [UInt64.ofNat_toNat]
    rfl
  · exact ⟨t', htree', hs'.shrink hentry, hapart'⟩
  · rw [Nat.min_eq_right hpages]
    refine samePages_of_moves htree htree' happ (hapart'.mono fun q => Nat.le_add_right _ _) hmoves
      (ha'.mono fun q => Nat.le_of_eq (spaceOwn_add t _ _ q).symm) fun u hu => ?_
    rw [hentry u (hs.lt_slots (by omega)), if_neg (by omega)]

/-- The sum wraps and `uvmdealloc` takes it for a larger size. -/
theorem growproc_below (hpt : (s.task s.cur).pagetable = some root) (hneg : n < 0)
    (hsize : ((s.task s.cur).sz.toNat : Int) + n.toInt < 0) :
    growproc n s = .ok (0, s.modTask s.cur fun t => { t with sz := (s.task s.cur).sz }) := by
  have hlt : n.toInt < 0 := Int32.lt_iff_toInt_lt.1 hneg
  have hge := Int32.le_toInt n
  have hext := toNat_extend n
  have hpos : ¬ 0 < n := Int32.lt_asymm hneg
  have hwrap : (s.task s.cur).sz.toNat ≤ ((s.task s.cur).sz + n.toInt64.toUInt64).toNat := by
    rw [UInt64.toNat_add]
    omega
  have hdealloc : onMem (uvmdealloc root (s.task s.cur).sz.toNat
      ((s.task s.cur).sz + n.toInt64.toUInt64).toNat) s = .ok ((s.task s.cur).sz.toNat, s) := by
    rw [uvmdealloc, if_pos hwrap]
    rfl
  rw [growproc, bind_ok (myproc_eq s), bind_ok (getTask_eq s s.cur), if_neg hpos, if_pos hneg, hpt]
  rw [deref, bind_ok (pure_apply root s), bind_ok hdealloc, UInt64.ofNat_toNat]
  rfl

/-- Nothing is asked for. -/
theorem growproc_nothing (hpos : ¬ 0 < n) (hneg : ¬ n < 0) :
    growproc n s = .ok (0, s.modTask s.cur fun t => { t with sz := t.sz }) := by
  rw [growproc, bind_ok (myproc_eq s), bind_ok (getTask_eq s s.cur), if_neg hpos, if_neg hneg]
  rfl

theorem AddressSpace.lt {m : Memory} {sz : Nat} (h : AddressSpace m root sz) : sz < 2 ^ 63 := by
  obtain ⟨t, -, hs, -⟩ := h
  exact lt_of_pages hs.fits

end Growproc

theorem modTask_sz (s : System) (i : Slot) (sz : UInt64) :
    ((s.modTask i fun t => { t with sz := sz }).task i).sz = sz := by
  rw [System.modTask_task, Function.update_self]

end Xv6Schedulers.Vm

import Xv6Schedulers.Vm.Grow

/-!
# Clone — `uvmcopy` gives an isolated copy or nothing

* `copyPages_spec`: the loop of `uvmcopy`, as an instance of the loops that map new pages.
* `Copied`: the new table has the same bytes and flags in frames of its own, or is as it was.
* `uvmcopy_isolated`: what `uvmcopy` leaves of the old table, the new table and the free list.
-/

namespace Xv6Schedulers.Vm

open Lib Exec

/-! ## Flags -/

theorem flags_toNat_lt (w : UInt64) : (pteFlags w).toNat < 1024 := by
  rw [pteFlags, UInt64.toNat_and]
  exact Nat.lt_of_le_of_lt Nat.and_le_right (by decide)

theorem flags_or_valid {w : UInt64} (h : w &&& PTE_V ≠ 0) : pteFlags w ||| PTE_V = pteFlags w := by
  have hbit : w.toNat.testBit 0 = true := by
    by_contra hno
    refine h (UInt64.toNat_inj.1 ?_)
    rw [UInt64.toNat_and]
    show w.toNat &&& 1 = 0
    rw [Nat.and_one_is_mod]
    rw [Nat.testBit_zero, decide_eq_true_iff] at hno
    omega
  refine UInt64.toNat_inj.1 (Nat.eq_of_testBit_eq fun i => ?_)
  rw [UInt64.toNat_or, Nat.testBit_or, pteFlags, UInt64.toNat_and, Nat.testBit_and]
  cases i with
  | zero =>
    rw [hbit]
    rfl
  | succ i =>
    have hone : PTE_V.toNat.testBit (i + 1) = false := by
      show Nat.testBit 1 (i + 1) = false
      rw [Nat.testBit_succ, show 1 / 2 = 0 from rfl, Nat.zero_testBit]
    rw [hone, Bool.or_false]

theorem flags_ne {w : UInt64} (h : Leaf w) : pteFlags w ||| PTE_V ≠ PTE_V := by
  rw [flags_or_valid h.1]
  exact h.2

/-! ## The loop -/

section Loop

variable {m m' : Memory} {old new : Nat} {told t : Table 2} {E : Prop} {k n : Nat}

theorem copyPages_undo {m₁ : Memory} {t₁ : Table 2} {perm : Nat → UInt64} {pg : Nat → Page}
    (h : Tree m₁ new t₁) (htop : k ≤ TOP) (hleaf : ∀ u < k, Leaf (entry t u))
    (ha : Apart m fun q => t.holds q + (frames t 0 k).count q)
    (hmoves : Moves m (fun q => t.holds q) m₁ fun q => t₁.holds q)
    (hentry : ∀ u < SLOTS, entry t₁ u = entry t u) :
    Ends E (uvmunmap new 0 k true >>= fun _ => pure false)
      (fun b m' => ∃ t', Allocated m new t perm pg 0 k n b m' t') m₁ := by
  have hundo : Ends E _ (fun _ m' => ∃ t', Allocated m new t perm pg 0 k n false m' t') m₁ :=
    undo_spec h htop (fun u _ hu => hleaf u hu) (Nat.zero_le k) ha hmoves hentry
  rw [Nat.zero_mul, Nat.sub_zero] at hundo
  exact hundo.seq fun _ _ hA => Ends.ret hA

theorem copyPages_spec (hold : Tree m old told) (h : Tree m new t) (htop : k + n ≤ TOP)
    (hleaf : ∀ u < k + n, Leaf (entry told u)) (hdone : ∀ u < k, Leaf (entry t u))
    (hnone : ∀ u, k ≤ u → u < k + n → entry t u = 0) {pg : Nat → Page}
    (hpg : ∀ u < k + n, m.page (pte2pa (entry told u)) = pg u)
    (ha : Apart m fun q => t.holds q + (frames t 0 k).count q + spaceOwn told (k + n) q) :
    Ends E (copyPages old new n k) (fun b m' =>
      ∃ t', Allocated m new t (fun u => pteFlags (entry told u)) pg 0 k n b m' t') m := by
  induction n generalizing k m t with
  | zero => exact Ends.ret ⟨t, Allocated.nil h⟩
  | succ n ih =>
    have hk : k < VPAGES := by
      have htop' := top_lt
      omega
    have hzero : entry t k = 0 := hnone k (Nat.le_refl k) (by omega)
    have hlk := hleaf k (by omega)
    have happ : Apart m fun q => t.holds q := ha.mono fun q => by omega
    have hown : Apart m fun q => t.holds q + (frames t 0 k).count q :=
      ha.mono fun q => Nat.le_add_right _ _
    have happold : Apart m fun q => told.holds q := by
      refine ha.mono fun q => ?_
      simp only [spaceOwn]
      omega
    obtain ⟨p₀, i₀, hslot⟩ := slot_of_entry hlk.ne_zero
    have hwalk := walk_dry hold happold (lt_maxva hk)
    rw [hslot] at hwalk
    have hget := hold.get_slot hslot
    rw [Nat.mul_div_cancel _ (by decide)] at hget
    unfold copyPages
    refine Ends.step hwalk (Ends.step hget ?_)
    rw [if_neg hlk.1]
    cases hfree : m.freelist with
    | nil =>
      exact Ends.step (kalloc_nil hfree)
        (copyPages_undo h (by omega) hdone hown (Moves.refl m _) fun _ _ => rfl)
    | cons p rest =>
      refine Ends.step (kalloc_cons hfree) (Ends.step (modify_apply _ _) ?_)
      -- the frame that is copied is not the new page
      have hsrc : (m.taken p rest).page (pte2pa (entry told k)) = pg k := by
        rw [← hpg k (by omega)]
        refine (Moves.taken hfree fun _ => 0).frame _ ?_
        have hone := ha.one (pte2pa (entry told k))
        have hpos : 0 < (frames told 0 (k + (n + 1))).count (pte2pa (entry told k)) :=
          frame_count_pos (Nat.zero_le k) (by omega)
        simp only [spaceOwn] at hone
        omega
      have hfilled : (m.taken p rest).setPage p ((m.taken p rest).page (pte2pa (entry told k))) =
          m.filled p rest (pg k) := by
        rw [hsrc]
        rfl
      rw [hfilled]
      refine (mapNew_spec h happ hfree (pg k) hk hzero (pteFlags (entry told k))).seq ?_
      rintro b m₂ ⟨hplaced, hfailed⟩
      cases b with
      | false =>
        obtain ⟨hkfree, t₂, htree₂, hmoves₂, hentry₂⟩ := hfailed rfl
        exact Ends.step hkfree
          (copyPages_undo htree₂ (by omega) hdone hown hmoves₂ hentry₂)
      | true =>
        obtain ⟨t₂, hp⟩ := hplaced rfl
        have hperm := flags_toNat_lt (entry told k)
        have hnext : k + 1 + n = k + (n + 1) := by omega
        have hrest : Apart m fun q => t.holds q + spaceOwn told (k + (n + 1)) q :=
          ha.mono fun q => by omega
        -- the old address space is not touched
        have hkeep : ∀ q, 0 < spaceOwn told (k + (n + 1)) q → m₂.page q = m.page q :=
          fun q hq => hp.moves.keeps hrest hq
        rw [if_pos rfl]
        refine (ih (hold.congr fun q hq => hkeep q ?_) hp.tree (by omega) ?_ ?_ ?_ ?_ ?_).mono ?_
        · simp only [spaceOwn]
          omega
        · rw [hnext]
          exact hleaf
        · intro u hu
          by_cases huk : u = k
          · rw [huk, hp.entry_self hk]
            exact leaf_entry p hperm (flags_ne hlk)
          · rw [hp.entry_of_lt hk (by omega)]
            exact hdone u (by omega)
        · intro u hle hlt
          have hu : u < SLOTS := lt_slots (by
            have htop' := top_lt
            omega)
          rw [hp.entry u hu, if_neg (by omega)]
          exact hnone u (by omega) (by omega)
        · intro u hu
          rw [hkeep]
          · exact hpg u (by omega)
          · have hpos : 0 < (frames told 0 (k + (n + 1))).count (pte2pa (entry told u)) :=
              frame_count_pos (Nat.zero_le u) (by omega)
            simp only [spaceOwn]
            omega
        · have hall := ha.moves ((hp.moves.extend fun q =>
            (frames t 0 k).count q + spaceOwn told (k + (n + 1)) q).congr
              (fun q => Nat.add_assoc _ _ _) fun _ => rfl)
          refine hall.mono fun q => ?_
          have hcount := hp.count hk (Nat.zero_le k) hperm q
          simp only [Nat.sub_zero] at hcount
          rw [hnext, hcount]
          omega
        · rintro b m' ⟨t', hA⟩
          exact ⟨t', hA.cons hp hk (Nat.zero_le k) hperm hzero hown⟩

end Loop

/-! ## `uvmcopy` -/

section Uvmcopy

variable {m m' : Memory} {old new sz : Nat} {told t t' : Table 2} {r : Owners} {b : Bool} {E : Prop}

/-- What `uvmcopy` does to the new table. -/
abbrev Copied (m : Memory) (new : Nat) (told t : Table 2) (n : Nat) (b : Bool) (m' : Memory)
    (t' : Table 2) : Prop :=
  Allocated m new t (fun u => pteFlags (entry told u)) (fun u => m.page (pte2pa (entry told u)))
    0 0 n b m' t'

theorem uvmcopy_spec (hold : Tree m old told) (hs : Space told (pages sz)) (hnew : Tree m new t)
    (hempty : Space t 0) (ha : Apart m fun q => t.holds q + spaceOwn told (pages sz) q) :
    Ends E (uvmcopy old new sz) (fun b m' => ∃ t', Copied m new told t (pages sz) b m' t') m := by
  have hn := Nat.zero_add (pages sz)
  refine copyPages_spec hold hnew (by rw [hn]; exact hs.fits) (by rw [hn]; exact hs.low)
    (fun u hu => absurd hu (Nat.not_lt_zero u)) ?_ (fun _ _ => rfl) (by rw [hn]; exact ha)
  intro u _ hlt
  have hfits := hs.fits
  exact hempty.high u (Nat.zero_le u) (by omega)

theorem Copied.space (h : Copied m new told t (pages sz) true m' t') (hs : Space told (pages sz))
    (hempty : Space t 0) : Space t' (pages sz) := by
  have hgrow := hempty.grow h (fun v => flags_toNat_lt _)
    (fun v _ hv => flags_ne (hs.low v (by omega))) (by rw [Nat.zero_add]; exact hs.fits)
  rwa [Nat.zero_add] at hgrow

theorem Copied.moves (h : Copied m new told t (pages sz) true m' t') :
    Moves m (fun q => t.holds q) m' (spaceOwn t' (pages sz)) :=
  Allocated.moves h rfl

theorem Copied.page (h : Copied m new told t (pages sz) true m' t') (hs : Space told (pages sz))
    {v : Nat} (hv : v < pages sz) : pteFlags (entry t' v) = pteFlags (entry told v) ∧
      m'.page (pte2pa (entry t' v)) = m.page (pte2pa (entry told v)) := by
  obtain ⟨p, hp, hentry, hpage⟩ := h.filled rfl v (Nat.zero_le v) (by omega)
  have hlt := flags_toNat_lt (entry told v)
  rw [hentry, pte2pa_mapping hp hlt, UInt64.or_assoc, pteFlags_entry p (flags_lt hlt),
    flags_or_valid (hs.low v hv).1]
  exact ⟨rfl, hpage⟩

theorem Copied.failed (h : Copied m new told t (pages sz) false m' t') :
    Moves m (fun q => t.holds q) m' (fun q => t'.holds q) ∧ ∀ u < SLOTS, entry t' u = entry t u := by
  refine ⟨h.back rfl, fun u hu => ?_⟩
  rw [h.clear rfl u hu, if_neg (by omega)]

theorem Copied.keeps (h : Copied m new told t (pages sz) b m' t')
    (ha : Apart m fun q => t.holds q + r q) {q : Nat} (hq : 0 < r q) : m'.page q = m.page q := by
  cases b with
  | true => exact h.moves.keeps ha hq
  | false => exact h.failed.1.keeps ha hq

end Uvmcopy

/-- From an address space `told` and a table without user pages, `uvmcopy` makes an isolated copy or
leaves the new table without user pages; `r` is what others hold. -/
theorem uvmcopy_isolated {m : Memory} {old new sz : Nat} {told t : Table 2} {r : Owners}
    (hold : Tree m old told) (hs : Space told (pages sz)) (hnew : Tree m new t) (hempty : Space t 0)
    (ha : Apart m fun q => t.holds q + (spaceOwn told (pages sz) q + r q)) :
    ∃ b m' t', uvmcopy old new sz m = .ok (b, m') ∧ Tree m' new t' ∧
      (∀ q, 0 < spaceOwn told (pages sz) q + r q → m'.page q = m.page q) ∧
      (∀ a, leafPte m' old a = leafPte m old a) ∧
      (b = true → Space t' (pages sz) ∧
        (Apart m' fun q => spaceOwn t' (pages sz) q + (spaceOwn told (pages sz) q + r q)) ∧
        ∀ a, a / PGSIZE < pages sz → pteFlags (leafPte m' new a) = pteFlags (leafPte m old a) ∧
          m'.page (frame m' new a) = m.page (frame m old a) ∧ r (frame m' new a) = 0 ∧
          ∀ a', a' / PGSIZE < pages sz → frame m' new a ≠ frame m' old a') ∧
      (b = false → Space t' 0 ∧
        ∀ q, m'.freelist.count q + t'.holds q = m.freelist.count q + t.holds q) := by
  have hspec : Ends False _ _ m := uvmcopy_spec hold hs hnew hempty (ha.mono fun q => by omega)
  obtain ⟨b, m', hret, t', hc⟩ := hspec.returns
  have hkeep : ∀ q, 0 < spaceOwn told (pages sz) q + r q → m'.page q = m.page q :=
    fun q hq => hc.keeps ha hq
  have happ : Apart m fun q => told.holds q := ha.mono fun q => by
    simp only [spaceOwn]
    omega
  have hold' : Tree m' old told := hold.congr fun q hq => hkeep q (by
    simp only [spaceOwn]
    omega)
  have happ' : Apart m' fun q => told.holds q := by
    cases b with
    | true =>
      refine (ha.moves (hc.moves.extend _)).mono fun q => ?_
      simp only [spaceOwn]
      omega
    | false =>
      refine (ha.moves (hc.failed.1.extend _)).mono fun q => ?_
      simp only [spaceOwn]
      omega
  have hleaf : ∀ a, leafPte m' old a = leafPte m old a := by
    intro a
    rw [leafPte_eq hold' happ', leafPte_eq hold happ]
  refine ⟨b, m', t', hret, hc.tree, hkeep, hleaf, fun hb => ?_, fun hb => ?_⟩
  · subst hb
    have hall := ha.moves (hc.moves.extend fun q => spaceOwn told (pages sz) q + r q)
    have hown : Apart m' fun q => t'.holds q := hall.mono fun q => by
      simp only [spaceOwn]
      omega
    refine ⟨hc.space hs hempty, hall, fun a ha => ?_⟩
    have hpage := hc.page hs ha
    have hframe : frame m' new a = pte2pa (entry t' (a / PGSIZE)) := by
      rw [frame, leafPte_eq hc.tree hown]
    have hpos : 0 < (frames t' 0 (pages sz)).count (pte2pa (entry t' (a / PGSIZE))) :=
      frame_count_pos (Nat.zero_le _) (by omega)
    -- the frame of the copy is held once, by the copy
    have hone := hall.one (pte2pa (entry t' (a / PGSIZE)))
    have hnew : spaceOwn told (pages sz) (pte2pa (entry t' (a / PGSIZE))) +
        r (pte2pa (entry t' (a / PGSIZE))) = 0 := by
      simp only [spaceOwn] at hone ⊢
      omega
    refine ⟨?_, ?_, ?_, fun a' ha' heq => ?_⟩
    · rw [leafPte_eq hc.tree hown, leafPte_eq hold happ]
      exact hpage.1
    · rw [hframe, frame, leafPte_eq hold happ]
      exact hpage.2
    · rw [hframe]
      omega
    · have hpos' : 0 < (frames told 0 (pages sz)).count (pte2pa (entry told (a' / PGSIZE))) :=
        frame_count_pos (Nat.zero_le _) (by omega)
      have heq' : pte2pa (entry t' (a / PGSIZE)) = pte2pa (entry told (a' / PGSIZE)) := by
        rw [← hframe, heq, frame, leafPte_eq hold' happ']
      rw [heq'] at hnew
      simp only [spaceOwn] at hnew
      omega
  · subst hb
    exact ⟨hempty.congr hc.failed.2, hc.failed.1.count⟩

/-- The memory of the one process is copied to a new table at `0x80030`. -/
theorem uvmcopy_isolated_solo : ∃ b m',
    uvmcopy 0x80020 0x80030 4096 (soloMemory [0x80027, 0x80028, 0x80029]) = .ok (b, m') ∧
      (b = true → m'.page (frame m' 0x80030 0) =
        (soloMemory [0x80027, 0x80028, 0x80029]).page 0x80023) := by
  have hu := userTable_solo [0x80027, 0x80028, 0x80029]
  have htree : Tree (soloMemory [0x80027, 0x80028, 0x80029]) 0x80030 (Radix.blank 0 2 0x80030) :=
    ⟨Radix.stored_blank rfl rfl 2, rfl⟩
  have hentry : ∀ v, entry (Radix.blank 0 2 0x80030) v = 0 := fun v => Radix.get_blank 0 _ 2 _
  have hown : ∀ q, (Radix.blank (0 : UInt64) 2 0x80030 : Table 2).holds q +
      (spaceOwn soloTable (pages 4096) q + 0) = (0x80030 :: soloUsed.dropLast).count q := by
    intro q
    have hspace : spaceOwn soloTable 1 q = soloUsed.dropLast.count q := spaceOwn_solo q
    rw [Radix.holds_blank, Nat.add_zero, show pages 4096 = 1 from rfl, hspace, List.count_cons]
    simp only [beq_iff_eq]
    omega
  have hspace : Space soloTable (pages 4096) := hu.space
  have hempty : Space (Radix.blank 0 2 0x80030) 0 :=
    ⟨fun v hv => absurd hv (Nat.not_lt_zero v), fun v _ _ => hentry v, Nat.zero_le _⟩
  have hapart : Apart (soloMemory [0x80027, 0x80028, 0x80029]) fun q =>
      (Radix.blank (0 : UInt64) 2 0x80030 : Table 2).holds q + (spaceOwn soloTable (pages 4096) q + 0) :=
    apart_of_nodup (by decide) (by decide) hown
  obtain ⟨b, m', t', hret, -, -, -, hcopy, -⟩ := uvmcopy_isolated hu.tree hspace htree hempty hapart
  refine ⟨b, m', hret, fun hb => ?_⟩
  have hpage := ((hcopy hb).2.2 0 (by decide)).2.1
  have hframe : frame (soloMemory [0x80027, 0x80028, 0x80029]) 0x80020 0 = 0x80023 := by
    rw [frame, leafPte_eq hu.tree (hapart.mono fun q => by simp only [spaceOwn]; omega),
      Nat.zero_div, entry_solo (by decide)]
    decide
  rw [hpage, hframe]

end Xv6Schedulers.Vm

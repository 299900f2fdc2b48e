import Xv6Schedulers.Vm.Map

/-!
# Space — user address spaces grow and shrink

A user address space has a mapping for each of its first pages and none above, up to `TRAPFRAME`.
`uvmalloc` and `uvmdealloc` move its end, and undo what they did when memory runs out.

* `TOP`: the number of the page at `TRAPFRAME`.
* `Space t n`: the first `n` pages are mapped, those above are not.
* `frames t v n`: the frames of a run of pages, which the owner of the table holds.
* `allocPages_spec`, `uvmalloc_spec`, `uvmdealloc_spec`: the entries and the pages that change hands.
* `Space.grow`, `Space.shrink`: they lead from one address space to another.
-/

namespace Xv6Schedulers.Vm

open Lib Exec List

/-- The number of the page at `TRAPFRAME`. -/
def TOP : Nat := VPAGES - 2

theorem top_lt : TOP < VPAGES := by decide

/-! ## Frames of a run of pages -/

section Frames

variable {t t' : Table 2}

theorem frames_add (t : Table 2) (v n k : Nat) :
    frames t v (n + k) = frames t v n ++ frames t (v + n) k := by
  rw [frames, ← range'_append_1, map_append]
  rfl

theorem frames_one (t : Table 2) (v : Nat) : frames t v 1 = [pte2pa (entry t v)] := rfl

theorem frames_congr {v n : Nat} (h : ∀ u, v ≤ u → u < v + n → entry t' u = entry t u) :
    frames t' v n = frames t v n := by
  refine map_congr_left fun u hu => ?_
  have hmem := mem_range'_1.1 hu
  rw [h u hmem.1 hmem.2]

theorem mem_frames {v n q : Nat} : q ∈ frames t v n ↔ ∃ u, v ≤ u ∧ u < v + n ∧ pte2pa (entry t u) = q := by
  rw [frames, mem_map]
  constructor
  · rintro ⟨u, hu, hq⟩
    have hmem := mem_range'_1.1 hu
    exact ⟨u, hmem.1, hmem.2, hq⟩
  · rintro ⟨u, hle, hlt, hq⟩
    exact ⟨u, mem_range'_1.2 ⟨hle, hlt⟩, hq⟩

theorem frame_count_pos {v n u : Nat} (hle : v ≤ u) (hlt : u < v + n) :
    0 < (frames t v n).count (pte2pa (entry t u)) :=
  count_pos_iff.2 (mem_frames.2 ⟨u, hle, hlt, rfl⟩)

end Frames

/-! ## Entries of user pages -/

theorem flags_lt {f : UInt64} (h : f.toNat < 1024) : (f ||| PTE_V).toNat < 1024 := by
  rw [UInt64.toNat_or]
  exact Nat.or_lt_two_pow (n := 10) h (by decide)

theorem leaf_entry (p : Nat) {f : UInt64} (hf : f.toNat < 1024)
    (hne : f ||| PTE_V ≠ PTE_V) : Leaf (pa2pte p ||| f ||| PTE_V) := by
  refine ⟨or_valid _, ?_⟩
  rw [UInt64.or_assoc, pteFlags_entry p (flags_lt hf)]
  exact hne

theorem pte2pa_mapping {p : Nat} {f : UInt64} (hp : p < 2 ^ 52) (hf : f.toNat < 1024) :
    pte2pa (pa2pte p ||| f ||| PTE_V) = p := by
  rw [UInt64.or_assoc, pte2pa_entry hp (flags_lt hf)]

section Spec

variable {m m' : Memory} {root : Nat} {t t' : Table 2} {E : Prop}

/-- `mappages` for one page. -/
theorem mapOne_spec (h : Tree m root t) (ha : Apart m fun q => t.holds q) {v : Nat} (hv : v < VPAGES)
    (hnone : entry t v &&& PTE_V = 0) (p : Nat) (perm : UInt64) :
    Ends E (mappages root (v * PGSIZE) PGSIZE p perm) (fun b m' => ∃ t', Tree m' root t' ∧
      Moves m (fun q => t.holds q) m' (fun q => t'.holds q) ∧
      (b = false → m'.freelist = []) ∧
      ∀ u < SLOTS, entry t' u =
        if b = true ∧ u = v then pa2pte p ||| perm ||| PTE_V else entry t u) m := by
  have hone : mappages root (v * PGSIZE) PGSIZE p perm = mapPages root perm 1 (v * PGSIZE) p := by
    have hva : v * PGSIZE % PGSIZE = 0 := Nat.mul_mod_left v PGSIZE
    rw [mappages, if_neg (fun hne => hne hva)]
    rfl
  rw [hone]
  refine (mapPages_spec (v := v) (n := 1) h ha perm p fun u hle hlt hbad => ?_).mono ?_
  · have hu : u = v := by omega
    rw [hu] at hbad
    exact absurd ⟨hv, hnone⟩ hbad
  · rintro b m' ⟨t', j, htree, hmoves, hmap⟩
    refine ⟨t', htree, hmoves, fun hb => (hmap.short hb).2, fun u hu => ?_⟩
    rw [hmap.entries u hu]
    cases b with
    | true =>
      rw [hmap.done rfl]
      by_cases huv : u = v
      · rw [if_pos (by omega), if_pos ⟨rfl, huv⟩, huv, Nat.sub_self]
        rfl
      · rw [if_neg (by omega), if_neg fun h => huv h.2]
    | false =>
      have hj := (hmap.short rfl).1
      rw [if_neg (by omega), if_neg nofun]

/-! ## `uvmdealloc` -/

theorem viaInt_eq {n : Nat} (h : n < 2 ^ 31) : viaInt n = n := by
  have hext : (Int32.ofNat n).toInt64 = Int64.ofNat n := by
    refine Int64.toInt_inj.1 ?_
    rw [Int32.toInt_toInt64, Int32.toInt_ofNat_of_lt h, Int64.toInt_ofNat_of_lt (by omega)]
  rw [viaInt, hext]
  show (Int64.ofNat n).toBitVec.toNat = n
  simp only [Int64.toBitVec_ofNat', BitVec.toNat_ofNat]
  omega

theorem pgroundup_eq {sz : Nat} (h : sz < 2 ^ 63) : PGROUNDUP sz = pages sz * PGSIZE := by
  rw [PGROUNDUP, pages, Nat.mod_eq_of_lt]
  simp only [PGSIZE]
  omega

theorem pages_mono {a b : Nat} (h : a ≤ b) : pages a ≤ pages b := Nat.div_le_div_right (by omega)

theorem lt_of_pages {sz : Nat} (h : pages sz ≤ TOP) : sz < 2 ^ 63 := by
  simp only [pages, TOP, VPAGES, PGSIZE] at h
  omega

theorem uvmdealloc_spec (h : Tree m root t) {oldsz newsz : Nat} (hle : newsz ≤ oldsz)
    (htop : pages oldsz ≤ TOP)
    (hleaf : ∀ u, pages newsz ≤ u → u < pages oldsz → Leaf (entry t u))
    (ha : Apart m fun q =>
      t.holds q + (frames t (pages newsz) (pages oldsz - pages newsz)).count q) :
    Ends E (uvmdealloc root oldsz newsz) (fun r m' => r = newsz ∧ ∃ t', Tree m' root t' ∧
      Moves m (fun q => t.holds q + (frames t (pages newsz) (pages oldsz - pages newsz)).count q) m'
        (fun q => t'.holds q) ∧
      (∀ q, t'.holds q = t.holds q) ∧
      ∀ u < SLOTS, entry t' u = if pages newsz ≤ u ∧ u < pages oldsz then 0 else entry t u) m := by
  have hpages := pages_mono hle
  -- nothing happens when no page lies between the sizes
  have hidle : pages newsz = pages oldsz → newsz = newsz ∧ ∃ t', Tree m root t' ∧
      Moves m (fun q => t.holds q + (frames t (pages newsz) (pages oldsz - pages newsz)).count q) m
        (fun q => t'.holds q) ∧
      (∀ q, t'.holds q = t.holds q) ∧
      ∀ u < SLOTS, entry t' u = if pages newsz ≤ u ∧ u < pages oldsz then 0 else entry t u := by
    intro heq
    refine ⟨rfl, t, h, ?_, fun _ => rfl, fun u _ => ?_⟩
    · rw [heq, Nat.sub_self]
      exact Moves.refl m _
    · rw [if_neg (by omega)]
  unfold uvmdealloc
  split
  · rename_i hge
    have heq : newsz = oldsz := Nat.le_antisymm hle hge
    refine Ends.ret ?_
    rw [← heq]
    rw [← heq] at hidle
    exact hidle rfl
  · rw [pgroundup_eq (lt_of_pages htop), pgroundup_eq (lt_of_pages (Nat.le_trans hpages htop)),
      ← Nat.sub_mul, Nat.mul_div_cancel _ (by decide)]
    by_cases hlt : pages newsz < pages oldsz
    · have hint : viaInt (pages oldsz - pages newsz) = pages oldsz - pages newsz := viaInt_eq (by
        simp only [TOP, VPAGES] at htop
        omega)
      rw [if_pos (Nat.mul_lt_mul_of_pos_right hlt (by decide)), hint]
      have hspec := uvmunmap_spec (E := E) h (pages newsz) (pages oldsz - pages newsz) true ha ?_
      · refine hspec.seq ?_
        rintro - m' ⟨t', htree, hmoves, hholds, hentry⟩
        have hend : pages newsz + (pages oldsz - pages newsz) = pages oldsz := Nat.add_sub_of_le hpages
        rw [hend] at hentry
        exact Ends.ret ⟨rfl, t', htree, hmoves, hholds, hentry⟩
      · intro u hle hlt hbad
        refine absurd ⟨?_, hleaf u hle (by omega)⟩ hbad
        have hu : u < TOP := by omega
        exact Nat.lt_trans hu top_lt
    · have heq : pages newsz = pages oldsz := by omega
      rw [if_neg (by rw [heq]; exact Nat.lt_irrefl _)]
      exact Ends.ret (hidle heq)

/-! ## `uvmalloc` -/

theorem pages_mul (v : Nat) : pages (v * PGSIZE) = v := by
  simp only [pages, PGSIZE]
  omega

theorem Tree.moves (h : Tree m root t) {own own' : Owners} (hm : Moves m own m' own')
    (ha : Apart m fun q => own q + t.holds q) : Tree m' root t :=
  h.congr fun _ hq => hm.keeps ha hq

/-- One page was mapped to a new frame `p` with these contents. -/
structure Placed (m : Memory) (root : Nat) (t : Table 2) (v : Nat) (perm : UInt64) (pg : Page)
    (m' : Memory) (t' : Table 2) (p : Nat) : Prop where
  tree : Tree m' root t'
  moves : Moves m (fun q => t.holds q) m' fun q => t'.holds q + single p q
  entry : ∀ u < SLOTS, entry t' u = if u = v then pa2pte p ||| perm ||| PTE_V else entry t u
  page : m'.page p = pg
  lt : p < 2 ^ 52

/-- `mappages` of a page that was just taken; if it fails, `kfree` gives the page back. -/
theorem mapNew_spec (h : Tree m root t) (ha : Apart m fun q => t.holds q) {p : Nat} {rest : List Nat}
    (hfree : m.freelist = p :: rest) (pg : Page) {v : Nat} (hv : v < VPAGES) (hzero : entry t v = 0)
    (perm : UInt64) :
    Ends E (mappages root (v * PGSIZE) PGSIZE p perm) (fun b m₂ =>
      (b = true → ∃ t', Placed m root t v perm pg m₂ t' p) ∧
      (b = false → kfree p m₂ = .ok ((), m₂.freed p) ∧ ∃ t', Tree (m₂.freed p) root t' ∧
        Moves m (fun q => t.holds q) (m₂.freed p) (fun q => t'.holds q) ∧
        ∀ u < SLOTS, entry t' u = entry t u)) (m.filled p rest pg) := by
  have hmove₁ := Moves.filled hfree pg fun q => t.holds q
  have happ := ha.moves hmove₁
  have hself := single_self p
  have htree₁ : Tree (m.filled p rest pg) root t := by
    refine h.congr fun q hq => (Moves.filled hfree pg fun _ => 0).frame q ?_
    have hone := ha.one q
    omega
  refine (mapOne_spec htree₁ (happ.mono fun q => by omega) hv (by rw [hzero]; decide) p perm).mono ?_
  rintro b m₂ ⟨t₂, htree₂, hmoves₂, -, hentry₂⟩
  have hmove₂ := hmove₁.trans (hmoves₂.extend (single p))
  have happ₂ := ha.moves hmove₂
  refine ⟨fun hb => ⟨t₂, htree₂, hmove₂, fun u hu => ?_, ?_, happ₂.lt (by omega)⟩, fun hb => ?_⟩
  · rw [hentry₂ u hu]
    simp only [hb, true_and]
  · rw [hmoves₂.keeps happ (by omega)]
    exact filled_page m p rest pg
  · refine ⟨kfree_eq (happ₂.real p (by omega)), t₂, ?_, hmove₂.trans (Moves.freed m₂ p _), ?_⟩
    · refine htree₂.moves (Moves.freed m₂ p fun _ => 0) (happ₂.mono fun q => ?_)
      omega
    · intro u hu
      rw [hentry₂ u hu, hb, if_neg nofun]

/-- The pages from `v` on have new frames, with flags and contents given for each page. -/
def Filled (m : Memory) (t : Table 2) (perm : Nat → UInt64) (pg : Nat → Page) (v n : Nat) : Prop :=
  ∀ u, v ≤ u → u < v + n → ∃ p < 2 ^ 52, entry t u = pa2pte p ||| perm u ||| PTE_V ∧ m.page p = pg u

/-- What a loop that maps new pages does after those from `v₀` up to `v` are mapped: it maps `n` more,
or none is mapped any more. -/
structure Allocated (m : Memory) (root : Nat) (t : Table 2) (perm : Nat → UInt64) (pg : Nat → Page)
    (v₀ v n : Nat) (b : Bool) (m' : Memory) (t' : Table 2) : Prop where
  tree : Tree m' root t'
  moves : b = true → Moves m (fun q => t.holds q) m' fun q => t'.holds q + (frames t' v n).count q
  same : b = true → ∀ u < SLOTS, u < v ∨ v + n ≤ u → entry t' u = entry t u
  filled : b = true → Filled m' t' perm pg v n
  back : b = false →
    Moves m (fun q => t.holds q + (frames t v₀ (v - v₀)).count q) m' fun q => t'.holds q
  clear : b = false → ∀ u < SLOTS, entry t' u = if v₀ ≤ u ∧ u < v then 0 else entry t u

section Loop

variable {v₀ v n p : Nat} {b : Bool} {m₁ : Memory} {t₁ : Table 2}

section Placed

variable {perm : UInt64} {pg : Page}

theorem Placed.entry_self (h : Placed m root t v perm pg m₁ t₁ p) (hv : v < VPAGES) :
    Vm.entry t₁ v = pa2pte p ||| perm ||| PTE_V := by
  rw [h.entry v (lt_slots hv), if_pos rfl]

theorem Placed.entry_of_lt (h : Placed m root t v perm pg m₁ t₁ p) (hv : v < VPAGES) {u : Nat}
    (hu : u < v) : Vm.entry t₁ u = Vm.entry t u := by
  rw [h.entry u (lt_slots (Nat.lt_trans hu hv)), if_neg (Nat.ne_of_lt hu)]

theorem Placed.count (h : Placed m root t v perm pg m₁ t₁ p) (hv : v < VPAGES) (hle : v₀ ≤ v)
    (hperm : perm.toNat < 1024) (q : Nat) :
    (frames t₁ v₀ (v + 1 - v₀)).count q = (frames t v₀ (v - v₀)).count q + single p q := by
  have hlen : v + 1 - v₀ = v - v₀ + 1 := by omega
  have hend : v₀ + (v - v₀) = v := by omega
  rw [hlen, frames_add, hend, frames_one, h.entry_self hv, pte2pa_mapping h.lt hperm,
    frames_congr fun u _ hlt => h.entry_of_lt hv (by omega), count_append, ← gone_single]
  rfl

theorem Placed.apart (h : Placed m root t v perm pg m₁ t₁ p) (hv : v < VPAGES) (hle : v₀ ≤ v)
    (hperm : perm.toNat < 1024)
    (ha : Apart m fun q => t.holds q + (frames t v₀ (v - v₀)).count q) :
    Apart m₁ fun q => t₁.holds q + (frames t₁ v₀ (v + 1 - v₀)).count q := by
  refine (ha.moves (h.moves.extend fun q => (frames t v₀ (v - v₀)).count q)).mono fun q => ?_
  rw [h.count hv hle hperm]
  omega

end Placed

variable {perm : Nat → UInt64} {pg : Nat → Page}

theorem Allocated.nil (h : Tree m root t) : Allocated m root t perm pg v₀ v 0 true m t where
  tree := h
  moves _ := Moves.refl m _
  same _ _ _ _ := rfl
  filled _ u hle hlt := absurd hlt (Nat.not_lt.2 hle)
  back := nofun
  clear := nofun

theorem Allocated.cons (h : Placed m root t v (perm v) (pg v) m₁ t₁ p)
    (hA : Allocated m₁ root t₁ perm pg v₀ (v + 1) n b m' t') (hv : v < VPAGES) (hle : v₀ ≤ v)
    (hperm : (perm v).toNat < 1024) (hzero : entry t v = 0)
    (ha : Apart m fun q => t.holds q + (frames t v₀ (v - v₀)).count q) :
    Allocated m root t perm pg v₀ v (n + 1) b m' t' := by
  have hcount := h.count hv hle hperm
  have happ := h.apart hv hle hperm ha
  have hlast : b = true → entry t' v = pa2pte p ||| perm v ||| PTE_V := by
    intro hb
    rw [hA.same hb v (lt_slots hv) (Or.inl (Nat.lt_succ_self v)), h.entry_self hv]
  refine ⟨hA.tree, fun hb => ?_, fun hb u hu hout => ?_, fun hb u hle hlt => ?_, fun hb => ?_,
    fun hb u hu => ?_⟩
  · refine (h.moves.trans ((hA.moves hb).extend (single p))).congr (fun _ => rfl) fun q => ?_
    rw [frames_succ, hlast hb, pte2pa_mapping h.lt hperm, ← gone_true, gone_cons, gone_single, gone_true,
      Nat.add_assoc]
  · rw [hA.same hb u hu (by omega), h.entry u hu, if_neg (by omega)]
  · by_cases huv : u = v
    · rw [huv]
      refine ⟨p, h.lt, hlast hb, ?_⟩
      -- the frame belongs to the pages that the rest of the loop leaves alone
      have hself := single_self p
      rw [(hA.moves hb).keeps happ (by rw [hcount]; omega), h.page]
    · exact hA.filled hb u (by omega) (by omega)
  · refine (h.moves.extend fun q => (frames t v₀ (v - v₀)).count q).trans
      ((hA.back hb).congr (fun q => ?_) fun _ => rfl)
    rw [hcount q]
    omega
  · rw [hA.clear hb u hu, h.entry u hu]
    by_cases huv : u = v
    · rw [if_pos (by omega), if_neg (by omega), huv, hzero]
    · rw [if_neg huv]
      by_cases hin : v₀ ≤ u ∧ u < v
      · rw [if_pos (by omega), if_pos hin]
      · rw [if_neg (by omega), if_neg hin]

/-- A loop gives up: the pages that were mapped are unmapped. -/
theorem undo_spec (h : Tree m₁ root t₁) (htop : v ≤ TOP)
    (hleaf : ∀ u, v₀ ≤ u → u < v → Leaf (entry t u)) (hle : v₀ ≤ v)
    (ha : Apart m fun q => t.holds q + (frames t v₀ (v - v₀)).count q)
    (hmoves : Moves m (fun q => t.holds q) m₁ fun q => t₁.holds q)
    (hentry : ∀ u < SLOTS, entry t₁ u = entry t u) :
    Ends E (uvmunmap root (v₀ * PGSIZE) (v - v₀) true)
      (fun _ m' => ∃ t', Allocated m root t perm pg v₀ v n false m' t') m₁ := by
  have hlt : ∀ u < v, u < VPAGES := fun u hu => by
    have htop' := top_lt
    omega
  have hframes : frames t₁ v₀ (v - v₀) = frames t v₀ (v - v₀) :=
    frames_congr fun u _ hu => hentry u (lt_slots (hlt u (by omega)))
  have hall := hmoves.extend fun q => (frames t v₀ (v - v₀)).count q
  have hspec := uvmunmap_spec (E := E) h v₀ (v - v₀) true
    (by
      rw [hframes]
      exact ha.moves hall)
    (by
      intro u hge hu hbad
      have hu : u < v := by omega
      refine absurd ⟨hlt u hu, ?_⟩ hbad
      rw [hentry u (lt_slots (hlt u hu))]
      exact hleaf u hge hu)
  rw [hframes, Nat.add_sub_of_le hle] at hspec
  refine hspec.mono ?_
  rintro - m' ⟨t', htree', hmoves', -, hentry'⟩
  refine ⟨t', htree', nofun, nofun, nofun, fun _ => hall.trans hmoves', fun _ u hu => ?_⟩
  rw [hentry' u hu, hentry u hu]

end Loop

/-- `uvmdealloc` of whole pages. -/
theorem uvmdealloc_pages {v₀ v : Nat} (hle : v₀ ≤ v) (htop : v ≤ TOP) :
    uvmdealloc root (v * PGSIZE) (v₀ * PGSIZE) =
      if v₀ < v then uvmunmap root (v₀ * PGSIZE) (v - v₀) true >>= fun _ => pure (v₀ * PGSIZE)
      else pure (v₀ * PGSIZE) := by
  have hpages : ∀ a ≤ v, PGROUNDUP (a * PGSIZE) = a * PGSIZE := by
    intro a ha
    rw [pgroundup_eq (lt_of_pages (by rw [pages_mul]; omega)), pages_mul]
  have hint : viaInt (v - v₀) = v - v₀ := viaInt_eq (by
    simp only [TOP, VPAGES] at htop
    omega)
  rw [uvmdealloc, hpages v (Nat.le_refl v), hpages v₀ hle, ← Nat.sub_mul,
    Nat.mul_div_cancel _ (by decide), hint]
  by_cases hlt : v₀ < v
  · have hmul : v₀ * PGSIZE < v * PGSIZE := Nat.mul_lt_mul_of_pos_right hlt (by decide)
    rw [if_neg (Nat.not_le.2 hmul), if_pos hmul, if_pos hlt]
  · rw [Nat.le_antisymm hle (Nat.not_lt.1 hlt), if_pos (Nat.le_refl _), if_neg (Nat.lt_irrefl _)]

theorem allocPages_undo {m₁ : Memory} {t₁ : Table 2} {perm : Nat → UInt64} {pg : Nat → Page}
    {v₀ v n : Nat} (h : Tree m₁ root t₁) (hle : v₀ ≤ v) (htop : v ≤ TOP)
    (hleaf : ∀ u, v₀ ≤ u → u < v → Leaf (entry t u))
    (ha : Apart m fun q => t.holds q + (frames t v₀ (v - v₀)).count q)
    (hmoves : Moves m (fun q => t.holds q) m₁ fun q => t₁.holds q)
    (hentry : ∀ u < SLOTS, entry t₁ u = entry t u) :
    Ends E (uvmdealloc root (v * PGSIZE) (v₀ * PGSIZE) >>= fun _ => pure false)
      (fun b m' => ∃ t', Allocated m root t perm pg v₀ v n b m' t') m₁ := by
  rw [uvmdealloc_pages hle htop]
  by_cases hlt : v₀ < v
  · rw [if_pos hlt]
    have hundo : Ends E (uvmunmap root (v₀ * PGSIZE) (v - v₀) true >>= fun _ => pure (v₀ * PGSIZE))
        (fun _ m' => ∃ t', Allocated m root t perm pg v₀ v n false m' t') m₁ :=
      (undo_spec h htop hleaf hle ha hmoves hentry).seq fun _ _ hA => Ends.ret hA
    exact hundo.seq fun _ _ hA => Ends.ret hA
  · have heq : v - v₀ = 0 := by omega
    rw [if_neg hlt]
    refine Ends.step (pure_apply _ _) (Ends.ret ⟨t₁, h, nofun, nofun, nofun, fun _ => ?_,
      fun _ u hu => ?_⟩)
    · rw [heq]
      exact hmoves
    · rw [hentry u hu, if_neg (by omega)]

theorem length_le_of_lt {l : List Nat} {b : Nat} (h : l.Nodup) (hb : ∀ x ∈ l, x < b) : l.length ≤ b := by
  have hsub : l.Subperm (range b) := h.subperm fun x hx => mem_range.2 (hb x hx)
  have hlen := hsub.length_le
  rwa [length_range] at hlen

theorem frames_le_phystop {v n : Nat} (ha : Apart m fun q => t.holds q + (frames t v n).count q) :
    n ≤ PHYSTOP := by
  have hlen : (frames t v n).length = n := by simp [frames]
  rw [← hlen]
  refine length_le_of_lt (nodup_iff_count_le_one.2 fun q => ?_) fun q hq => ?_
  · have hone := ha.one q
    omega
  · have hpos := count_pos_iff.2 hq
    exact (ha.real q (by omega)).2

/-- The loop of `uvmalloc`; when it is asked for too much it runs out of memory before it comes to
`TRAPFRAME`. -/
theorem allocPages_spec (h : Tree m root t) {perm : UInt64} (hperm : perm.toNat < 1024)
    (hne : perm ||| PTE_V ≠ PTE_V) {v₀ v n : Nat} (hv : v₀ ≤ v)
    (htop : v + n ≤ TOP ∨ v₀ + PHYSTOP < TOP)
    (hleaf : ∀ u, v₀ ≤ u → u < v → Leaf (entry t u)) (hnone : ∀ u, v ≤ u → u < TOP → entry t u = 0)
    (ha : Apart m fun q => t.holds q + (frames t v₀ (v - v₀)).count q) :
    Ends E (allocPages root perm (v₀ * PGSIZE) n (v * PGSIZE)) (fun b m' =>
      ∃ t', Allocated m root t (fun _ => perm) (fun _ _ => 0) v₀ v n b m' t') m := by
  induction n generalizing v m t with
  | zero => exact Ends.ret ⟨t, Allocated.nil h⟩
  | succ n ih =>
    have hlt : v < TOP := by
      have hphys := frames_le_phystop ha
      omega
    have hv' : v < VPAGES := Nat.lt_trans hlt top_lt
    have hzero : entry t v = 0 := hnone v (Nat.le_refl v) hlt
    have happ : Apart m fun q => t.holds q := ha.mono fun q => Nat.le_add_right _ _
    unfold allocPages
    cases hfree : m.freelist with
    | nil =>
      exact Ends.step (kalloc_nil hfree)
        (allocPages_undo h hv (by omega) hleaf ha (Moves.refl m _) fun _ _ => rfl)
    | cons p rest =>
      refine Ends.step (kalloc_cons hfree) (Ends.step (modify_apply _ _) ?_)
      refine (mapNew_spec h happ hfree (fun _ => 0) hv' hzero perm).seq ?_
      rintro b m₂ ⟨hplaced, hfailed⟩
      cases b with
      | false =>
        obtain ⟨hkfree, t₂, htree₂, hmoves₂, hentry₂⟩ := hfailed rfl
        exact Ends.step hkfree
          (allocPages_undo htree₂ hv (by omega) hleaf ha hmoves₂ hentry₂)
      | true =>
        obtain ⟨t₂, hp⟩ := hplaced rfl
        have hnext : v * PGSIZE + PGSIZE = (v + 1) * PGSIZE := (Nat.succ_mul v PGSIZE).symm
        rw [if_pos rfl, hnext]
        refine (ih hp.tree (by omega) (by omega) ?_ ?_ (hp.apart hv' hv hperm ha)).mono ?_
        · intro u hle hlt
          by_cases huv : u = v
          · rw [huv, hp.entry_self hv']
            exact leaf_entry p hperm hne
          · rw [hp.entry_of_lt hv' (by omega)]
            exact hleaf u hle (by omega)
        · intro u hle hlt
          rw [hp.entry u (lt_slots (Nat.lt_trans hlt top_lt)), if_neg (by omega)]
          exact hnone u (by omega) hlt
        · rintro b m' ⟨t', hA⟩
          exact ⟨t', hA.cons hp hv' hv hperm hzero ha⟩

/-- `uvmalloc` to a larger size: the pages up to the new size are mapped, or none of them. -/
theorem uvmalloc_spec (h : Tree m root t) {oldsz newsz : Nat} {xperm : UInt64}
    (hxperm : xperm.toNat < 1024) (hle : oldsz ≤ newsz) (hold : pages oldsz ≤ TOP)
    (htop : pages newsz ≤ TOP ∨ pages oldsz + PHYSTOP < TOP)
    (hnone : ∀ u, pages oldsz ≤ u → u < TOP → entry t u = 0) (ha : Apart m fun q => t.holds q) :
    Ends E (uvmalloc root oldsz newsz xperm) (fun r m' => ∃ b t', r = (if b then newsz else 0) ∧
      Allocated m root t (fun _ => PTE_R ||| PTE_U ||| xperm) (fun _ _ => 0) (pages oldsz) (pages oldsz)
        (pages newsz - pages oldsz) b m' t') m := by
  have hpages := pages_mono hle
  have hround := pgroundup_eq (lt_of_pages hold)
  have hrest : pages (newsz - pages oldsz * PGSIZE) = pages newsz - pages oldsz := by
    simp only [pages, PGSIZE]
    omega
  have hperm : (PTE_R ||| PTE_U ||| xperm).toNat < 1024 := by
    rw [UInt64.toNat_or]
    exact Nat.or_lt_two_pow (n := 10) (by decide) hxperm
  have hne : PTE_R ||| PTE_U ||| xperm ||| PTE_V ≠ PTE_V := by
    intro heq
    have hread : (PTE_R ||| PTE_U).toNat.testBit 1 = true := by decide
    have hbit : (PTE_R ||| PTE_U ||| xperm ||| PTE_V).toNat.testBit 1 = true := by
      rw [UInt64.toNat_or, Nat.testBit_or, UInt64.toNat_or, Nat.testBit_or, hread]
      rfl
    rw [heq] at hbit
    exact absurd hbit (by decide)
  have hspec := allocPages_spec (E := E) (n := pages newsz - pages oldsz) h hperm hne
    (Nat.le_refl (pages oldsz)) (by omega) (fun u hle hlt => by omega)
    hnone
    (by
      rw [Nat.sub_self]
      exact ha)
  unfold uvmalloc
  rw [if_neg (Nat.not_lt.2 hle)]
  simp only [hround, hrest]
  refine hspec.seq ?_
  rintro b m' ⟨t', hA⟩
  cases b with
  | true => exact Ends.ret ⟨true, t', rfl, hA⟩
  | false => exact Ends.ret ⟨false, t', rfl, hA⟩

end Spec

/-! ## Address spaces -/

/-- The first `n` pages are mapped, the others below `TRAPFRAME` are not. -/
structure Space (t : Table 2) (n : Nat) : Prop where
  low : ∀ v < n, Leaf (entry t v)
  high : ∀ v, n ≤ v → v < TOP → entry t v = 0
  fits : n ≤ TOP

/-- The pages that an address space of `n` pages holds. -/
def spaceOwn (t : Table 2) (n : Nat) : Owners := fun q => t.holds q + (frames t 0 n).count q

/-- The table with root `root` maps exactly the pages of `sz` bytes below `TRAPFRAME`, to frames of its
own. -/
def AddressSpace (m : Memory) (root sz : Nat) : Prop :=
  ∃ t, Tree m root t ∧ Space t (pages sz) ∧ Apart m (spaceOwn t (pages sz))

section Space

variable {m : Memory} {t : Table 2} {n : Nat}

theorem pages_le_phystop (ha : Apart m (spaceOwn t n)) : n ≤ PHYSTOP := frames_le_phystop ha

end Space

/-! ## Address spaces change their size -/

section Space

variable {m m' : Memory} {root : Nat} {t t' : Table 2} {perm : Nat → UInt64} {pg : Nat → Page}
  {a n : Nat}

theorem spaceOwn_add (t : Table 2) (a n q : Nat) :
    spaceOwn t (a + n) q = t.holds q + (frames t a n).count q + (frames t 0 a).count q := by
  rw [spaceOwn, frames_add, count_append, Nat.zero_add]
  omega

theorem Space.lt_slots (h : Space t n) {v : Nat} (hv : v < n) : v < SLOTS := by
  have hfits := h.fits
  have htop := top_lt
  exact Vm.lt_slots (by omega)

theorem Space.grow (hs : Space t a) (hA : Allocated m root t perm pg a a n true m' t')
    (hperm : ∀ v, (perm v).toNat < 1024) (hne : ∀ v, a ≤ v → v < a + n → perm v ||| PTE_V ≠ PTE_V)
    (htop : a + n ≤ TOP) :
    Space t' (a + n) where
  low v hv := by
    by_cases hold : v < a
    · rw [hA.same rfl v (hs.lt_slots hold) (Or.inl hold)]
      exact hs.low v hold
    · obtain ⟨p, hp, hentry, -⟩ := hA.filled rfl v (by omega) hv
      rw [hentry]
      exact leaf_entry p (hperm v) (hne v (by omega) hv)
  high v hle hlt := by
    have hslots : v < SLOTS := Vm.lt_slots (Nat.lt_trans hlt top_lt)
    rw [hA.same rfl v hslots (Or.inr hle)]
    exact hs.high v (by omega) hlt
  fits := htop

theorem Apart.grow (ha : Apart m (spaceOwn t a)) (hs : Space t a)
    (hA : Allocated m root t perm pg a a n true m' t') : Apart m' (spaceOwn t' (a + n)) := by
  have hframes : frames t' 0 a = frames t 0 a :=
    frames_congr fun u _ hlt => hA.same rfl u (hs.lt_slots (by omega)) (Or.inl (by omega))
  have hext := (hA.moves rfl).extend fun q => (frames t 0 a).count q
  refine (Apart.moves ha hext).mono fun q => ?_
  rw [spaceOwn_add, hframes]

theorem Space.congr (hs : Space t n) (hentry : ∀ u < SLOTS, entry t' u = entry t u) : Space t' n where
  low v hv := by
    rw [hentry v (hs.lt_slots hv)]
    exact hs.low v hv
  high v hle hlt := by
    rw [hentry v (Vm.lt_slots (Nat.lt_trans hlt top_lt))]
    exact hs.high v hle hlt
  fits := hs.fits

theorem Apart.tables (ha : Apart m (spaceOwn t n)) (hs : Space t n)
    (hm : Moves m (fun q => t.holds q) m' fun q => t'.holds q)
    (hentry : ∀ u < SLOTS, entry t' u = entry t u) : Apart m' (spaceOwn t' n) := by
  have hframes : frames t' 0 n = frames t 0 n :=
    frames_congr fun u _ hlt => hentry u (hs.lt_slots (by omega))
  refine (Apart.moves ha (hm.extend fun q => (frames t 0 n).count q)).mono fun q => ?_
  rw [spaceOwn, hframes]

theorem Space.shrink (hs : Space t (a + n))
    (hentry : ∀ u < SLOTS, entry t' u = if a ≤ u ∧ u < a + n then 0 else entry t u) : Space t' a where
  low v hv := by
    rw [hentry v (hs.lt_slots (by omega)), if_neg (by omega)]
    exact hs.low v (by omega)
  high v hle hlt := by
    rw [hentry v (Vm.lt_slots (Nat.lt_trans hlt top_lt))]
    by_cases hv : v < a + n
    · rw [if_pos ⟨hle, hv⟩]
    · rw [if_neg (by omega)]
      exact hs.high v (by omega) hlt
  fits := Nat.le_trans (Nat.le_add_right a n) hs.fits

theorem Apart.shrink (ha : Apart m (spaceOwn t (a + n))) (hs : Space t (a + n))
    (hm : Moves m (fun q => t.holds q + (frames t a n).count q) m' fun q => t'.holds q)
    (hentry : ∀ u < SLOTS, entry t' u = if a ≤ u ∧ u < a + n then 0 else entry t u) :
    Apart m' (spaceOwn t' a) := by
  have hframes : frames t' 0 a = frames t 0 a :=
    frames_congr fun u _ hlt => by rw [hentry u (hs.lt_slots (by omega)), if_neg (by omega)]
  have hext := hm.extend fun q => (frames t 0 a).count q
  have hall := (ha.mono fun q => Nat.le_of_eq (spaceOwn_add t a n q).symm).moves hext
  refine hall.mono fun q => ?_
  rw [spaceOwn, hframes]

end Space

end Xv6Schedulers.Vm

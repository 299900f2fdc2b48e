import Mathlib.Data.Finset.Card
import Xv6Schedulers.Fs.Image
import Xv6Schedulers.Mkfs.Model

/-!
# Reservation — the blocks that one `writei` gives to the log

`filewrite` cuts a write into chunks so that each fits the `MAXOPBLOCKS` blocks that `begin_op`
reserved for it.

* `logging` runs the code and collects the blocks given to `log_write`.
* `charge e w` is a potential: the blocks logged so far, and what the indirect block of `e` can still
  add to them, with its bit of the free map.
* `filewrite_fits`: whatever the disk holds, one chunk logs at most `MAXOPBLOCKS` blocks.
-/

namespace Xv6Schedulers.Fs

open Lib Log Function Finset

/-! ## Runs that collect the log -/

/-- What an operation adds to the log. -/
def Op.log : Op → Finset BlockNo → Finset BlockNo
  | .logWrite b, l => insert b l
  | _, l => l

/-- The operations over the blocks, with the blocks that were logged. -/
def logging (sb : Super) : Prog.Handler Ops (World × Finset BlockNo) :=
  fun o w => ((handler sb o w.1).1, (handler sb o w.1).2, Op.log o w.2)

/-- `x` returns in `Q`, without a panic. -/
abbrev Logs (sb : Super) {α : Type} (x : FsM α) (Q : α → World × Finset BlockNo → Prop)
    (w : World × Finset BlockNo) : Prop :=
  Prog.wp (logging sb) (fun _ => True) (fun _ => False) x Q w

section Rules

variable {sb : Super} {e : Entry} {w : World × Finset BlockNo} {b : BlockNo} {α : Type}
  {Q : α → World × Finset BlockNo → Prop}

theorem Logs.last {x : FsM α} (h : Logs sb (x >>= .ret) Q w) : Logs sb x Q w :=
  Prog.wp_mono (Prog.wp_bind.1 h) fun _ _ hQ => hQ

theorem Logs.inode {k : Inode → FsM α} (h : Logs sb (k (w.1.tab.inode e)) Q w) :
    Logs sb (Fs.inode e >>= k) Q w :=
  ⟨trivial, h⟩

theorem Logs.setDin {k : Unit → FsM α} {f : Dinode → Dinode}
    (h : Logs sb (k ()) Q ({ w.1 with tab := { w.1.tab with
      inode := update w.1.tab.inode e { w.1.tab.inode e with din := f (w.1.tab.inode e).din } } }, w.2)) :
    Logs sb (Fs.setDin e f >>= k) Q w :=
  ⟨trivial, trivial, trivial, h⟩

theorem Logs.bread {k : Unit → FsM α} (h : Logs sb (k ()) Q w) : Logs sb (Fs.bread b >>= k) Q w :=
  ⟨trivial, h⟩

theorem Logs.peek {k : Block → FsM α} (h : Logs sb (k (w.1.disk b)) Q w) :
    Logs sb (Fs.peek b >>= k) Q w :=
  ⟨trivial, h⟩

theorem Logs.setData {k : Unit → FsM α} {v : Block}
    (h : Logs sb (k ()) Q ({ w.1 with disk := update w.1.disk b v }, w.2)) :
    Logs sb (Fs.setData b v >>= k) Q w :=
  ⟨trivial, h⟩

theorem Logs.logWrite {k : Unit → FsM α} (h : Logs sb (k ()) Q (w.1, insert b w.2)) :
    Logs sb (Fs.logWrite b >>= k) Q w :=
  ⟨trivial, h⟩

theorem Logs.brelse {k : Unit → FsM α} (h : Logs sb (k ()) Q w) : Logs sb (Fs.brelse b >>= k) Q w :=
  ⟨trivial, h⟩

end Rules

/-- What the indirect block can still add: itself, and its bit if it is not there yet. -/
def rootCost (e : Entry) (w : World × Finset BlockNo) : Nat :=
  if (w.1.tab.inode e).din.addrs 12 = 0 then 2
  else if (w.1.tab.inode e).din.addrs 12 ∈ w.2 then 0 else 1

def charge (e : Entry) (w : World × Finset BlockNo) : Nat := w.2.card + rootCost e w

section Charge

variable {sb : Super} {e : Entry} {w w' : World × Finset BlockNo} {a b : BlockNo}

theorem rootCost_le (e : Entry) (w : World × Finset BlockNo) : rootCost e w ≤ 2 := by
  rw [rootCost]
  split
  · exact Nat.le_refl 2
  · split <;> omega

theorem rootCost_mono (haddr : (w'.1.tab.inode e).din.addrs 12 = (w.1.tab.inode e).din.addrs 12)
    (hsub : w.2 ⊆ w'.2) : rootCost e w' ≤ rootCost e w := by
  rw [rootCost, rootCost, haddr]
  by_cases hzero : (w.1.tab.inode e).din.addrs 12 = 0
  · rw [if_pos hzero, if_pos hzero]
  rw [if_neg hzero, if_neg hzero]
  by_cases hmem : (w.1.tab.inode e).din.addrs 12 ∈ w.2
  · rw [if_pos (hsub hmem)]
    exact Nat.zero_le _
  · rw [if_neg hmem]
    split <;> omega

/-- A block number was found or allocated: it is logged next, and what the indirect block can add has
not grown by more than that. -/
def Charged (e : Entry) (w : World × Finset BlockNo) (c : Nat) (a : BlockNo)
    (w' : World × Finset BlockNo) : Prop :=
  (insert a w'.2).card + rootCost e w' ≤ charge e w + c

theorem Charged.hit (e : Entry) (w : World × Finset BlockNo) (a : BlockNo) : Charged e w 1 a w := by
  have hcard := card_insert_le a w.2
  rw [Charged, charge]
  omega

/-- What `balloc` did: it found no block, or logged a block of the free map and the block it took. -/
structure Allocated (w : World × Finset BlockNo) (a : BlockNo) (w' : World × Finset BlockNo) : Prop where
  tab : w'.1.tab = w.1.tab
  log : (a = 0 ∧ w'.2 = w.2) ∨ ∃ bb, w'.2 = insert a (insert bb w.2)

theorem Allocated.subset (h : Allocated w a w') : w.2 ⊆ w'.2 := by
  rcases h.log with ⟨-, heq⟩ | ⟨bb, heq⟩
  · rw [heq]
  · rw [heq]
    exact (subset_insert bb _).trans (subset_insert a _)

theorem Allocated.card_le (h : Allocated w a w') : (insert a w'.2).card ≤ w.2.card + 2 := by
  rcases h.log with ⟨-, heq⟩ | ⟨bb, heq⟩
  · have hcard := card_insert_le a w.2
    rw [heq]
    omega
  · have hbit := card_insert_le bb w.2
    have hblock := card_insert_le a (insert bb w.2)
    rw [heq, insert_idem]
    omega

theorem Allocated.mem (h : Allocated w a w') (ha : a ≠ 0) : a ∈ w'.2 := by
  rcases h.log with ⟨hzero, -⟩ | ⟨bb, heq⟩
  · exact absurd hzero ha
  · rw [heq]
    exact mem_insert_self a _

theorem Allocated.charged (h : Allocated w a w') : Charged e w 2 a w' := by
  have hcard := h.card_le
  have hroot : rootCost e w' ≤ rootCost e w := rootCost_mono (by rw [h.tab]) h.subset
  rw [Charged, charge]
  omega

end Charge

/-! ## Allocation -/

section Alloc

variable {sb : Super} {e : Entry}

theorem logs_bzero (b : BlockNo) (w : World × Finset BlockNo) :
    Logs sb (bzero b) (fun _ w' => w'.1.tab = w.1.tab ∧ w'.2 = insert b w.2) w :=
  Logs.bread (Logs.setData (Logs.logWrite (Logs.last (Logs.brelse ⟨rfl, rfl⟩))))

theorem logs_ballocRound (k : Nat) (w : World × Finset BlockNo) : Logs sb (ballocRound sb k) (fun r w' =>
    (r = none → w' = w) ∧ ∀ a, r = some a → Allocated w a w') w := by
  refine Logs.bread (Logs.peek ?_)
  cases freeBit sb (w.1.disk (sb.bblock (k * BPB))) (k * BPB) BPB 0 with
  | none => exact Logs.brelse ⟨fun _ => rfl, nofun⟩
  | some bi =>
    refine Logs.setData (Logs.logWrite (Logs.brelse (Prog.wp.seq (logs_bzero _ _) ?_)))
    rintro _ w' ⟨htab, hlog⟩
    refine ⟨nofun, fun a ha => ?_⟩
    cases ha
    exact ⟨htab, Or.inr ⟨_, hlog⟩⟩

theorem logs_balloc (w : World × Finset BlockNo) : Logs sb (balloc sb) (Allocated w) w := by
  have hscan : Logs sb (Prog.untilSome (ballocRound sb) ((sb.size + BPB - 1) / BPB) 0) (fun r w' =>
      (r = none → w' = w) ∧ ∀ a, r = some a → Allocated w a w') w := by
    refine Prog.wp_untilSome (fun _ w' => w' = w) rfl ?_ ?_
    · rintro k w' _ _ rfl
      refine Prog.wp_mono (logs_ballocRound k w') fun r w'' hr => ⟨fun a ha => ?_, hr.1⟩
      exact ⟨nofun, fun a' ha' => hr.2 a' (ha.trans ha')⟩
    · rintro w' rfl
      exact ⟨fun _ => rfl, nofun⟩
  refine Prog.wp.seq hscan fun r w' hr => ?_
  cases r with
  | none => exact ⟨by rw [hr.1 rfl], Or.inl ⟨rfl, by rw [hr.1 rfl]⟩⟩
  | some a => exact hr.2 a rfl

theorem logs_bmapSlot (j : Fin 13) (w : World × Finset BlockNo) : Logs sb (bmapSlot sb e j) (fun a w' =>
    ((w.1.tab.inode e).din.addrs j ≠ 0 → a = (w.1.tab.inode e).din.addrs j ∧ w' = w) ∧
    ((w.1.tab.inode e).din.addrs j = 0 →
      (insert a w'.2).card ≤ w.2.card + 2 ∧ w.2 ⊆ w'.2 ∧ (a ≠ 0 → a ∈ w'.2) ∧
      ∀ i, (w'.1.tab.inode e).din.addrs i = if i = j ∧ a ≠ 0 then a else (w.1.tab.inode e).din.addrs i)) w := by
  refine Logs.inode ?_
  by_cases hzero : (w.1.tab.inode e).din.addrs j = 0
  · rw [if_neg (not_not.2 hzero)]
    refine Prog.wp.seq (logs_balloc w) fun a w' ha => ?_
    by_cases hnone : a = 0
    · rw [if_pos hnone]
      refine ⟨fun hne => absurd hzero hne, fun _ => ⟨?_, ha.subset, fun hne => absurd rfl hne, fun i => ?_⟩⟩
      · rw [← hnone]
        exact ha.card_le
      · rw [if_neg (fun h => h.2 rfl), ha.tab]
    · rw [if_neg hnone]
      refine Logs.setDin ⟨fun hne => absurd hzero hne, fun _ => ⟨ha.card_le, ha.subset, ha.mem, fun i => ?_⟩⟩
      show (update w'.1.tab.inode e _ e).din.addrs i = _
      rw [update_self]
      show update (w'.1.tab.inode e).din.addrs j a i = _
      by_cases hij : i = j
      · rw [hij, update_self, if_pos ⟨rfl, hnone⟩]
      · rw [update_of_ne hij, if_neg (fun h => hij h.1), ha.tab]
  · rw [if_pos hzero]
    exact ⟨fun _ => ⟨rfl, rfl⟩, fun h => absurd h hzero⟩

theorem charged_root {w w₁ w' : World × Finset BlockNo} {a root : BlockNo}
    (hroot : (w.1.tab.inode e).din.addrs 12 = root) (hne : root ≠ 0) (ha : Allocated w a w₁)
    (htab : w'.1.tab = w₁.1.tab) (hlog : w'.2 = insert root w₁.2) : Charged e w 2 a w' := by
  have hcard := ha.card_le
  have haddr : (w'.1.tab.inode e).din.addrs 12 = root := by rw [htab, ha.tab, hroot]
  have hpaid : rootCost e w' = 0 := by
    rw [rootCost, haddr, if_neg hne, if_pos (by rw [hlog]; exact mem_insert_self _ _)]
  have hcost : (insert root (insert a w₁.2)).card ≤ (insert a w₁.2).card + rootCost e w := by
    rw [rootCost, hroot, if_neg hne]
    by_cases hmem : root ∈ w.2
    · rw [if_pos hmem, insert_eq_of_mem (mem_insert_of_mem (ha.subset hmem))]
      exact Nat.le_refl _
    · rw [if_neg hmem]
      exact card_insert_le _ _
  rw [Charged, charge, hpaid, hlog, insert_comm]
  omega

theorem logs_bmapWord {w w₁ : World × Finset BlockNo} {root : BlockNo} {k c : Nat} (hne : root ≠ 0)
    (haddr : (w₁.1.tab.inode e).din.addrs 12 = root) (hle : charge e w₁ ≤ charge e w)
    (hone : 1 ≤ c) (htwo : Block.word (w₁.1.disk root) k = 0 → 2 ≤ c) :
    Logs sb (do
      bread root
      let v ← peek root
      if Block.word v k ≠ 0 then
        brelse root
        return Block.word v k
      else
      let addr ← balloc sb
      if addr = 0 then
        brelse root
        return 0
      else
      let v ← peek root
      setData root (Block.setWord v k addr)
      logWrite root
      brelse root
      return addr) (Charged e w c) w₁ := by
  have hto : ∀ {n a w'}, Charged e w₁ n a w' → n ≤ c → Charged e w c a w' := by
    intro n a w' h hnc
    rw [Charged] at h ⊢
    omega
  refine Logs.bread (Logs.peek ?_)
  by_cases hword : Block.word (w₁.1.disk root) k = 0
  · rw [if_neg (not_not.2 hword)]
    refine Prog.wp.seq (logs_balloc w₁) fun a w₂ ha => ?_
    by_cases hnone : a = 0
    · rw [if_pos hnone]
      refine Logs.brelse ?_
      rw [hnone] at ha
      exact hto ha.charged (htwo hword)
    · rw [if_neg hnone]
      refine Logs.peek (Logs.setData (Logs.logWrite (Logs.brelse (hto ?_ (htwo hword)))))
      exact charged_root haddr hne ha rfl rfl
  · rw [if_pos hword]
    exact Logs.brelse (hto (Charged.hit e w₁ _) hone)

theorem logs_bmap {bn : Nat} (hbn : bn < MAXFILE) (w : World × Finset BlockNo) :
    Logs sb (bmap sb e bn)
      (Charged e w (if slot w.1.disk (w.1.tab.inode e).din (dataSlot bn) = 0 then 2 else 1)) w := by
  unfold bmap
  by_cases hdirect : bn < NDIRECT
  · have hlt : bn < 13 := Nat.lt_succ_of_lt hdirect
    rw [if_pos hdirect, dataSlot_of_lt hdirect, slot_direct hlt]
    refine Prog.wp_mono (logs_bmapSlot _ w) fun a w' h => ?_
    obtain ⟨hhit, hmiss⟩ := h
    by_cases hzero : (w.1.tab.inode e).din.addrs (Fin.ofNat 13 bn) = 0
    · obtain ⟨hcard, hsub, -, haddr⟩ := hmiss hzero
      have hother : (12 : Fin 13) ≠ Fin.ofNat 13 bn := by
        intro heq
        have hval := congrArg Fin.val heq
        rw [Fin.val_ofNat, Nat.mod_eq_of_lt hlt] at hval
        exact absurd hdirect (by rw [← hval]; decide)
      have hroot : rootCost e w' ≤ rootCost e w :=
        rootCost_mono ((haddr 12).trans (if_neg fun h => hother h.1)) hsub
      rw [if_pos hzero, Charged, charge]
      omega
    · obtain ⟨-, rfl⟩ := hhit hzero
      rw [if_neg hzero]
      exact Charged.hit e w' a
  have hk : bn - NDIRECT < NINDIRECT := by
    simp only [MAXFILE, NDIRECT, NINDIRECT] at *
    omega
  have hslot : dataSlot bn = 13 + (bn - NDIRECT) := by
    rw [dataSlot_of_le (Nat.le_of_not_lt hdirect)]
    simp only [NDIRECT] at *
    omega
  rw [if_neg hdirect, if_pos hk, hslot]
  refine Prog.wp.seq (logs_bmapSlot 12 w) fun root w₁ h => ?_
  obtain ⟨hhit, hmiss⟩ := h
  by_cases hzero : (w.1.tab.inode e).din.addrs 12 = 0
  · obtain ⟨hcard, hsub, hmem, haddr⟩ := hmiss hzero
    rw [slot_of_no_root (Nat.le_add_right 13 _) hzero, if_pos rfl]
    have hcost : rootCost e w = 2 := if_pos hzero
    by_cases hnone : root = 0
    · rw [if_pos hnone]
      have hroot := rootCost_le e w₁
      show Charged e w 2 0 w₁
      rw [Charged, charge, ← hnone]
      omega
    · rw [if_neg hnone]
      have haddr₁ : (w₁.1.tab.inode e).din.addrs 12 = root := (haddr 12).trans (if_pos ⟨rfl, hnone⟩)
      refine logs_bmapWord hnone haddr₁ ?_ (by decide) fun _ => Nat.le_refl 2
      have hpaid : rootCost e w₁ = 0 := by
        rw [rootCost, haddr₁, if_neg hnone, if_pos (hmem hnone)]
      rw [insert_eq_of_mem (hmem hnone)] at hcard
      rw [charge, charge, hpaid, hcost]
      exact hcard
  · obtain ⟨rfl, rfl⟩ := hhit hzero
    rw [if_neg hzero, slot_indirect (Nat.le_add_right 13 _) hzero, Nat.add_sub_cancel_left]
    refine logs_bmapWord hzero rfl (Nat.le_refl _) ?_ fun hword => ?_
    · split <;> omega
    · rw [if_pos hword]

end Alloc

/-! ## Writing -/

/-- The blocks that `m` bytes from `off` on are in. -/
def spans (off m : Nat) : Nat := (off % BSIZE + m + BSIZE - 1) / BSIZE

section Write

variable {sb : Super} {e : Entry}

/-- The loop of `writei`: two blocks for each round, one less if the first block is there. -/
theorem logs_writeLoop (src : Source) {n k c : Nat} {tot off : Nat} {w : World × Finset BlockNo}
    (hc : charge e w ≤ c) (hend : off + (n - tot) ≤ MAXFILE * BSIZE)
    (hround : tot < n → charge e w + 2 * spans off (n - tot) ≤ c ∨
      slot w.1.disk (w.1.tab.inode e).din (dataSlot (off / BSIZE)) ≠ 0 ∧
        charge e w + 2 * spans off (n - tot) ≤ c + 1) :
    Logs sb (writeLoop sb e src n k tot off) (fun _ w' => w'.2.card ≤ c) w := by
  induction k generalizing tot off w with
  | zero => exact Nat.le_trans (Nat.le_add_right _ _) hc
  | succ k ih =>
    unfold writeLoop
    by_cases hlt : tot < n
    · rw [if_pos hlt]
      have hbn : off / BSIZE < MAXFILE := by
        simp only [MAXFILE, NDIRECT, NINDIRECT, BSIZE] at *
        omega
      have hnext : ∀ m, m = min (n - tot) (BSIZE - off % BSIZE) → tot + m < n →
          spans (off + m) (n - (tot + m)) + 1 = spans off (n - tot) := by
        intro m hm hmore
        simp only [spans, BSIZE] at *
        omega
      have hpos : 1 ≤ spans off (n - tot) := by
        simp only [spans, BSIZE] at *
        omega
      refine Prog.wp.seq (logs_bmap hbn w) fun a w₁ ha => ?_
      -- what is logged once the block is, against what the round may add
      have hpaid : (insert a w₁.2).card + rootCost e w₁ + 2 * spans off (n - tot) ≤ c + 2 := by
        rw [Charged] at ha
        rcases hround hlt with hle | ⟨hslot, hle⟩
        · split at ha <;> omega
        · rw [if_neg hslot] at ha
          omega
      have hstop : w₁.2.card ≤ c := by
        have hsub := card_le_card (subset_insert a w₁.2)
        omega
      by_cases hzero : a = 0
      · rw [if_pos hzero]
        exact hstop
      · rw [if_neg hzero]
        refine Logs.bread (Logs.peek (Logs.setData ?_))
        split
        · exact Logs.brelse hstop
        · refine Logs.logWrite (Logs.brelse ?_)
          have hroot : rootCost e (w₁.1, insert a w₁.2) ≤ rootCost e w₁ :=
            rootCost_mono rfl (subset_insert a w₁.2)
          refine ih ?_ (by omega) fun hmore => Or.inl ?_
          · show (insert a w₁.2).card + rootCost e (w₁.1, insert a w₁.2) ≤ c
            omega
          · show (insert a w₁.2).card + rootCost e (w₁.1, insert a w₁.2) + _ ≤ c
            have hspan := hnext _ rfl hmore
            omega
    · rw [if_neg hlt]
      exact Nat.le_trans (Nat.le_add_right _ _) hc

theorem logs_iupdate (w : World × Finset BlockNo) :
    Logs sb (iupdate sb e) (fun _ w' => w'.2.card ≤ w.2.card + 1) w :=
  Logs.inode (Logs.bread (Logs.peek (Logs.setData (Logs.logWrite (Logs.last (Logs.brelse
    (card_insert_le _ _)))))))

end Write

/-- One chunk of `filewrite` logs at most `MAXOPBLOCKS` blocks, whether it is written, the disk is full or
the copy from the user stops; the disk may hold anything. -/
theorem filewrite_fits (sb : Super) (s : World) (e : Entry) (src : Source) (off n : UInt32)
    (hslots : ∀ bn, bn * BSIZE < (s.tab.inode e).din.size.toNat →
      slot s.disk (s.tab.inode e).din (dataSlot bn) ≠ 0)
    (hoff : off ≤ (s.tab.inode e).din.size)
    (hn : n.toNat ≤ (MAXOPBLOCKS - 1 - 1 - 2) / 2 * BSIZE) :
    Prog.wp (logging sb) (fun _ => True) (fun _ => False) (writei sb e src off n)
      (fun _ w => w.2.card ≤ MAXOPBLOCKS) (s, ∅) := by
  have hchunk : n.toNat ≤ 3 * 1024 := hn
  have hle : off.toNat ≤ (s.tab.inode e).din.size.toNat := UInt32.le_iff_toNat_le.1 hoff
  unfold writei
  refine Logs.inode ?_
  by_cases hout : (s.tab.inode e).din.size < off ∨ off + n < off
  · rw [if_pos hout]
    exact Nat.zero_le _
  rw [if_neg hout]
  by_cases hlong : MAXFILE * BSIZE < (off + n).toNat
  · rw [if_pos hlong]
    exact Nat.zero_le _
  rw [if_neg hlong]
  have hadd : (off + n).toNat = off.toNat + n.toNat := by
    have hmono : off.toNat ≤ (off + n).toNat :=
      UInt32.le_iff_toNat_le.1 (UInt32.not_lt.1 (not_or.1 hout).2)
    have hmod := UInt32.toNat_add off n
    have h₁ := off.toNat_lt
    have h₂ := n.toNat_lt
    omega
  have hcost : charge e (s, ∅) ≤ 2 := by
    rw [charge, card_empty, Nat.zero_add]
    exact rootCost_le e _
  -- an offset inside a block is below the size, so that block is there
  have hround : 0 < n.toNat → charge e (s, ∅) + 2 * spans off.toNat (n.toNat - 0) ≤ 9 ∨
      slot s.disk (s.tab.inode e).din (dataSlot (off.toNat / BSIZE)) ≠ 0 ∧
        charge e (s, ∅) + 2 * spans off.toNat (n.toNat - 0) ≤ 9 + 1 := by
    intro _
    by_cases haligned : off.toNat % BSIZE = 0
    · refine Or.inl ?_
      simp only [spans, BSIZE] at *
      omega
    · refine Or.inr ⟨hslots _ ?_, ?_⟩
      · simp only [BSIZE] at *
        omega
      · simp only [spans, BSIZE] at *
        omega
  refine Prog.wp.seq (logs_writeLoop src (Nat.le_trans hcost (by decide)) (by omega) hround) ?_
  rintro ⟨tot, off'⟩ w hw
  refine Logs.setDin (Prog.wp.seq (logs_iupdate _) fun _ w' hw' => ?_)
  exact Nat.le_trans hw' (Nat.add_le_add_right hw 1)

/-- Blank blocks and an empty file whose inode is locked. -/
def emptyFile : World where
  disk _ := fun _ => 0
  tab :=
    { inode := fun _ => ⟨ROOTDEV, 2, 1, true, true, { Dinode.zero with type := T_FILE }⟩
      file := fun _ => ⟨.none, 0, false, false, 0, 0, 0⟩
      proc := fun _ => ⟨false, none, fun _ => none⟩ }
  found := []

/-- The largest chunk at the start of an empty file. -/
theorem filewrite_fits_empty : Prog.wp (logging Mkfs.super) (fun _ => True) (fun _ => False)
    (writei Mkfs.super 0 (.kernel fun _ => 7) 0 3072) (fun _ w => w.2.card ≤ MAXOPBLOCKS) (emptyFile, ∅) :=
  filewrite_fits Mkfs.super emptyFile 0 (.kernel fun _ => 7) 0 3072
    (fun bn hbn => absurd hbn (Nat.not_lt_zero _)) (by decide) (by decide)

end Xv6Schedulers.Fs

import Xv6Schedulers.Mkfs.Files

/-!
# Append — `iappend` adds bytes to one file and leaves the others alone

* `blockFor_spec`: the block for an offset is found, or it is the next free one, or the disk is full.
* `iappend_spec`: the file holds its old bytes and the new ones; `iappend` stops only when the file
  would be too long or the blocks run out.
-/

namespace Xv6Schedulers.Mkfs

open Lib Log Fs Exec Function List

variable {m m' m'' : Mk} {i i' fbn : Nat} {din din' : Dinode} {b x : BlockNo} {E : Prop}
  {c p : List UInt8}

/-! ## The block for an offset -/

/-- How many blocks the search for `fbn` takes. -/
def needs (m : Mk) (din : Dinode) (fbn : Nat) : Nat :=
  (if slot m.blk din (dataSlot fbn) = 0 then 1 else 0) +
    if NDIRECT ≤ fbn ∧ din.addrs 12 = 0 then 1 else 0

/-- What the search for block `fbn` of a file does: slots that were filled stay, and the block it
returns is one of the file, zero if it is new. -/
structure Found (m m' : Mk) (i : Nat) (din din' : Dinode) (fbn : Nat) (x : BlockNo) : Prop where
  ahead : Ahead m' i din'
  keeps : Keeps m m' i
  fields : ∃ a, din' = { din with addrs := a }
  here : slot m'.blk din' (dataSlot fbn) = x
  ne_zero : x ≠ 0
  old : slot m.blk din (dataSlot fbn) ≠ 0 → slot m.blk din (dataSlot fbn) = x
  fresh : slot m.blk din (dataSlot fbn) = 0 → m'.blk x = fun _ => 0
  other : ∀ bn < MAXFILE, bn ≠ fbn → slot m'.blk din' (dataSlot bn) = slot m.blk din (dataSlot bn)
  blk : ∀ bn < MAXFILE, slot m.blk din (dataSlot bn) ≠ 0 →
    m'.blk (slot m.blk din (dataSlot bn)) = m.blk (slot m.blk din (dataSlot bn))
  root : din'.addrs 12 ≠ 0 ↔ din.addrs 12 ≠ 0 ∨ NDIRECT ≤ fbn
  count : m'.freeblock.toNat = m.freeblock.toNat + needs m din fbn

theorem keeps_take (m : Mk) (i : Nat) : Keeps m m.take i := Keeps.refl m i

theorem setAddr_fields (d : Dinode) (j : Fin 13) (b : BlockNo) :
    ∃ a, d.setAddr j b = { d with addrs := a } :=
  ⟨_, rfl⟩

theorem setAddr_self (d : Dinode) (j : Fin 13) (b : BlockNo) : (d.setAddr j b).addrs j = b := by
  simp only [Dinode.setAddr, update_self]

theorem dataSlot_direct (h : fbn < NDIRECT) : slot m.blk din (dataSlot fbn) =
    din.addrs (Fin.ofNat 13 fbn) := by
  rw [dataSlot_of_lt h, slot_direct (Nat.lt_succ_of_lt h)]

theorem freeblock_ne_zero (h : Laid m) : m.freeblock ≠ 0 := by
  intro hzero
  have hlow := h.low
  rw [hzero] at hlow
  exact absurd hlow (by decide)

theorem dataSlot_indirect (hle : NDIRECT ≤ fbn) : dataSlot fbn = 13 + (fbn - NDIRECT) := by
  have hle' : 12 ≤ fbn := hle
  rw [dataSlot_of_le hle]
  show fbn + 1 = 13 + (fbn - 12)
  omega

theorem slot_word (hle : NDIRECT ≤ fbn) (hroot : din.addrs 12 ≠ 0) :
    slot m.blk din (dataSlot fbn) = Block.word (m.blk (din.addrs 12)) (fbn - NDIRECT) := by
  rw [dataSlot_indirect hle, slot_indirect (Nat.le_add_right _ _) hroot, Nat.add_sub_cancel_left]

theorem word_index (hle : NDIRECT ≤ fbn) (hfbn : fbn < MAXFILE) : fbn - NDIRECT < NINDIRECT := by
  have hle' : 12 ≤ fbn := hle
  have hfbn' : fbn < 268 := hfbn
  show fbn - 12 < 256
  omega

section Ahead

variable (h : Ahead m i din)
include h

theorem Ahead.used_slot {t : Nat} (ht : t < SLOTS)
    (hne : slot m.blk din t ≠ 0) : nmeta ≤ (slot m.blk din t).toNat ∧
      (slot m.blk din t).toNat < m.freeblock.toNat := by
  have hused := h.sound.used_slot h.lt ht h.work_type (by rw [work_self]; exact hne)
  rw [work_self] at hused
  exact ⟨hused.1.1, of_decide_eq_true hused.2⟩

theorem Ahead.inData_slot {t : Nat} (ht : t < SLOTS)
    (hne : slot m.blk din t ≠ 0) : super.InData (slot m.blk din t) :=
  ⟨(h.used_slot ht hne).1, (h.used_slot ht hne).2.trans_le h.high⟩

theorem Ahead.found_direct (hlt : m.freeblock.toNat < FSSIZE)
    (hdirect : fbn < NDIRECT) (hzero : din.addrs (Fin.ofNat 13 fbn) = 0) :
    Found m m.take i din (din.setAddr (Fin.ofNat 13 fbn) m.freeblock) fbn m.freeblock := by
  have hval : (Fin.ofNat 13 fbn).val = fbn := by
    rw [Fin.val_ofNat]
    exact Nat.mod_eq_of_lt (Nat.lt_succ_of_lt hdirect)
  have hnot : Fin.ofNat 13 fbn ≠ 12 := by
    intro heq
    rw [heq] at hval
    exact absurd hval (Nat.ne_of_gt hdirect)
  have hslot : ∀ t, slot m.take.blk (din.setAddr (Fin.ofNat 13 fbn) m.freeblock) t =
      if t = fbn then m.freeblock else slot m.blk din t := by
    intro t
    have hset : slot m.blk (din.setAddr (Fin.ofNat 13 fbn) m.freeblock) t =
        if t = (Fin.ofNat 13 fbn).val then m.freeblock else slot m.blk din t :=
      slot_setAddr fun heq => absurd heq hnot
    rw [hval] at hset
    exact hset
  have hdata : slot m.blk din (dataSlot fbn) = din.addrs (Fin.ofNat 13 fbn) :=
    dataSlot_direct hdirect
  have hindex := dataSlot_of_lt hdirect
  refine ⟨h.putAddr hlt hzero, keeps_take m i, setAddr_fields _ _ _, ?_, freeblock_ne_zero h.toLaid,
    fun hne => ?_, fun _ => h.toLaid.blk_zero hlt, fun bn _ hne => ?_, fun _ _ _ => rfl, ?_, ?_⟩
  · rw [hslot, hindex, if_pos rfl]
  · rw [hdata, hzero] at hne
    exact absurd rfl hne
  · rw [hslot, if_neg]
    intro heq
    rw [← hindex] at heq
    exact hne (dataSlot_inj heq)
  · have hkeep : (din.setAddr (Fin.ofNat 13 fbn) m.freeblock).addrs 12 = din.addrs 12 :=
      update_of_ne (Ne.symm hnot) _ _
    rw [hkeep]
    exact ⟨Or.inl, fun hor => hor.resolve_right (Nat.not_le.2 hdirect)⟩
  · have hno : ¬(NDIRECT ≤ fbn ∧ din.addrs 12 = 0) := fun hand => Nat.not_le.2 hdirect hand.1
    rw [needs, hdata, if_pos hzero, if_neg hno]
    exact toNat_succ hlt

theorem Ahead.found_old (hne : slot m.blk din (dataSlot fbn) ≠ 0)
    (hroot : NDIRECT ≤ fbn → din.addrs 12 ≠ 0) :
    Found m m i din din fbn (slot m.blk din (dataSlot fbn)) := by
  refine ⟨h, Keeps.refl m i, ⟨din.addrs, rfl⟩, rfl, hne, fun _ => rfl, fun hzero => absurd hzero hne,
    fun _ _ _ => rfl, fun _ _ _ => rfl, ⟨Or.inl, ?_⟩, ?_⟩
  · rintro (hr | hle)
    · exact hr
    · exact hroot hle
  · have hno : ¬(NDIRECT ≤ fbn ∧ din.addrs 12 = 0) := fun hand => hroot hand.1 hand.2
    rw [needs, if_neg hne, if_neg hno]
    rfl

/-! ### Blocks of different files are different -/

theorem Ahead.slot_ne_other {t t' : Nat} (ht : t < SLOTS)
    (hne : slot m.blk din t ≠ 0) (hi' : i' < NINODES) (hii : i' ≠ i)
    (htype : (m.ino i').type ≠ 0) (ht' : t' < SLOTS) :
    slot m.blk (m.ino i') t' ≠ slot m.blk din t := by
  have hother := h.sound.slot_ne_slot (j := t) (t := t') h.lt ht h.work_type
    (by rw [work_self]; exact hne) hi' ht'
    (by rw [work_of_ne m din hii, ne_eq, plain_type_eq_zero]; exact htype)
    (fun heq => hii (congrArg Prod.fst heq).symm)
  rw [work_self, work_of_ne m din hii] at hother
  exact hother

theorem Ahead.slot_ne_self {t t' : Nat} (ht : t < SLOTS)
    (hne : slot m.blk din t ≠ 0) (ht' : t' < SLOTS) (htt : t' ≠ t) :
    slot m.blk din t' ≠ slot m.blk din t := by
  have hother := h.sound.slot_ne_slot (j := t) (t := t') h.lt ht h.work_type
    (by rw [work_self]; exact hne) h.lt ht' h.work_type
    (fun heq => htt (congrArg Prod.snd heq).symm)
  rw [work_self] at hother
  exact hother

theorem Ahead.keeps_store {t : Nat} (ht : t < SLOTS)
    (hslot : slot m.blk din t = x) (hne : x ≠ 0) (v : Block) : Keeps m (m.store x v) i := by
  subst hslot
  have hdata := h.inData_slot ht hne
  refine ⟨rfl, fun i' hi' hii => ⟨congrFun (ino_store hdata v) i', fun htype => ⟨?_, ?_⟩⟩⟩
  · intro t' ht'
    rw [blk_store hdata v]
    exact slot_update (h.slot_ne_other ht hne hi' hii htype (by decide : 12 < SLOTS))
  · intro t' ht' _
    rw [blk_store hdata v, update_of_ne]
    exact h.slot_ne_other ht hne hi' hii htype ht'

/-! ### Blocks behind the indirect block -/

theorem Ahead.putWord (hlt : m.freeblock.toNat < FSSIZE)
    (hroot : din.addrs 12 ≠ 0) {k : Nat} (hk : k < NINDIRECT)
    (hzero : Block.word (m.blk (din.addrs 12)) k = 0) :
    Ahead (m.take.store (din.addrs 12) (Block.setWord (m.blk (din.addrs 12)) k m.freeblock)) i din
    where
  toLaid := by
    have hused := (h.used_slot (t := 12) (by decide) hroot).2
    refine (h.toLaid.take hlt).store ?_ _
    show (din.addrs 12).toNat < (m.freeblock + 1).toNat
    rw [toNat_succ hlt]
    exact Nat.lt_succ_of_lt hused
  lt := h.lt
  type := h.type
  sound := by
    have hself : (m.take.work i din).ino i = plain din := work_self m.take i din
    have hput := (h.alloc hlt).putWord h.lt h.work_type (by rw [hself]; exact hroot) hk
      (by rw [hself]; exact hzero)
    rw [hself] at hput
    have hdata : super.InData (din.addrs 12) := h.inData_slot (t := 12) (by decide) hroot
    rw [work_store hdata]
    exact hput.1

theorem Ahead.found_word (hlt : m.freeblock.toNat < FSSIZE)
    (hroot : din.addrs 12 ≠ 0) (hle : NDIRECT ≤ fbn) (hfbn : fbn < MAXFILE)
    (hzero : Block.word (m.blk (din.addrs 12)) (fbn - NDIRECT) = 0) :
    Found m (m.take.store (din.addrs 12)
      (Block.setWord (m.blk (din.addrs 12)) (fbn - NDIRECT) m.freeblock)) i din din fbn
      m.freeblock := by
  have hk := word_index hle hfbn
  have h12 : 12 < SLOTS := by decide
  have hblk : (m.take.store (din.addrs 12)
      (Block.setWord (m.blk (din.addrs 12)) (fbn - NDIRECT) m.freeblock)).blk =
      update m.blk (din.addrs 12)
        (Block.setWord (m.blk (din.addrs 12)) (fbn - NDIRECT) m.freeblock) :=
    blk_store (h.inData_slot h12 hroot) _
  have hslot : ∀ t < SLOTS, slot (m.take.store (din.addrs 12)
      (Block.setWord (m.blk (din.addrs 12)) (fbn - NDIRECT) m.freeblock)).blk din t =
      if t = dataSlot fbn then m.freeblock else slot m.blk din t := by
    intro t ht
    rw [hblk, dataSlot_indirect hle]
    exact slot_setWord hk ht hroot
  have hold : slot m.blk din (dataSlot fbn) = 0 := by
    rw [slot_word hle hroot]
    exact hzero
  refine ⟨h.putWord hlt hroot hk hzero, ?_, ⟨din.addrs, rfl⟩, ?_, freeblock_ne_zero h.toLaid,
    fun hne => absurd hold hne, fun _ => ?_, fun bn hbn hne => ?_, fun bn hbn hne => ?_,
    ⟨Or.inl, fun _ => hroot⟩, ?_⟩
  · exact h.keeps_store h12 rfl hroot _
  · rw [hslot _ (dataSlot_lt hfbn), if_pos rfl]
  · -- the new block is not the indirect block, which lies below `freeblock`
    have hne : m.freeblock ≠ din.addrs 12 := by
      intro heq
      have hused := (h.used_slot h12 hroot).2
      rw [show slot m.blk din 12 = m.freeblock from heq.symm] at hused
      exact Nat.lt_irrefl _ hused
    rw [hblk, update_of_ne hne]
    exact h.toLaid.blk_zero hlt
  · rw [hslot _ (dataSlot_lt hbn), if_neg]
    exact fun heq => hne (dataSlot_inj heq)
  · rw [hblk, update_of_ne]
    exact h.slot_ne_self h12 hroot (dataSlot_lt hbn) dataSlot_ne
  · have hno : ¬(NDIRECT ≤ fbn ∧ din.addrs 12 = 0) := fun hand => hroot hand.2
    rw [needs, if_pos hold, if_neg hno]
    exact toNat_succ hlt

theorem slot_root_new (hlt : m.freeblock.toNat < FSSIZE) (hzero : din.addrs 12 = 0) (bn : Nat) :
    slot m.take.blk (din.setAddr 12 m.freeblock) (dataSlot bn) = slot m.blk din (dataSlot bn) := by
  have hset : slot m.blk (din.setAddr 12 m.freeblock) (dataSlot bn) =
      if dataSlot bn = (12 : Fin 13).val then m.freeblock else slot m.blk din (dataSlot bn) :=
    slot_setAddr fun _ => ⟨hzero, h.toLaid.blk_zero hlt⟩
  exact hset.trans (if_neg dataSlot_ne)

theorem needs_root_new (hlt : m.freeblock.toNat < FSSIZE)
    (hzero : din.addrs 12 = 0) (hle : NDIRECT ≤ fbn) :
    m.take.freeblock.toNat + needs m.take (din.setAddr 12 m.freeblock) fbn =
      m.freeblock.toNat + needs m din fbn := by
  have hno : ¬(NDIRECT ≤ fbn ∧ m.freeblock = 0) := fun hand => freeblock_ne_zero h.toLaid hand.2
  have hyes : NDIRECT ≤ fbn ∧ din.addrs 12 = 0 := ⟨hle, hzero⟩
  have hsucc : m.take.freeblock.toNat = m.freeblock.toNat + 1 := toNat_succ hlt
  rw [needs, needs, slot_root_new h hlt hzero, setAddr_self, if_neg hno, if_pos hyes, hsucc]
  omega

theorem Found.of_root (hlt : m.freeblock.toNat < FSSIZE)
    (hzero : din.addrs 12 = 0) (hle : NDIRECT ≤ fbn)
    (hf : Found m.take m' i (din.setAddr 12 m.freeblock) din' fbn x) :
    Found m m' i din din' fbn x := by
  have hslot := slot_root_new h hlt hzero
  refine ⟨hf.ahead, hf.keeps, ?_, hf.here, hf.ne_zero, fun ho => ?_, fun hz => ?_, fun bn hbn hn => ?_,
    fun bn hbn hn => ?_, ?_, ?_⟩
  · obtain ⟨a, ha⟩ := hf.fields
    exact ⟨a, ha⟩
  · have hold := hf.old (by rw [hslot]; exact ho)
    rw [hslot] at hold
    exact hold
  · exact hf.fresh (by rw [hslot]; exact hz)
  · exact (hf.other bn hbn hn).trans (hslot bn)
  · have hblk := hf.blk bn hbn (by rw [hslot]; exact hn)
    rw [hslot] at hblk
    exact hblk
  · exact iff_of_true (hf.root.2 (Or.inr hle)) (Or.inr hle)
  · exact hf.count.trans (needs_root_new h hlt hzero hle)

end Ahead

theorem take_eq (m : Mk) : takeBlock m = .ok (m.freeblock, m.take) := rfl

theorem rsect_ok (hb : b.toNat < m.sectors) : rsect b m = .ok (m.data b, m) := if_pos hb

theorem rsect_die (hb : ¬ b.toNat < m.sectors) : rsect b m = .error .die := if_neg hb

/-- No block is left: the number returned is beyond the end of the disk. -/
structure Full (m' : Mk) (x : BlockNo) : Prop where
  sectors : m'.sectors = FSSIZE
  beyond : FSSIZE ≤ x.toNat

/-- A block of the file, or one beyond the disk when there are too few. -/
def Gets (m : Mk) (i : Nat) (din : Dinode) (fbn : Nat) (r : Dinode × BlockNo) (m' : Mk) : Prop :=
  Found m m' i din r.1 fbn r.2 ∨ FSSIZE < m.freeblock.toNat + needs m din fbn ∧ Full m' r.2

theorem blockFor_direct (h : Ahead m i din) (hlt : fbn < NDIRECT) :
    Ends E (blockFor din fbn) (Gets m i din fbn) m := by
  have hslot : slot m.blk din (dataSlot fbn) = din.addrs (Fin.ofNat 13 fbn) := dataSlot_direct hlt
  have hno : ¬ NDIRECT ≤ fbn := Nat.not_le.2 hlt
  unfold blockFor
  rw [if_pos hlt]
  by_cases hzero : din.addrs (Fin.ofNat 13 fbn) = 0
  · rw [if_pos hzero]
    refine Ends.step (take_eq m) (Ends.ret ?_)
    rcases Nat.lt_or_ge m.freeblock.toNat FSSIZE with hfree | hfull
    · exact Or.inl (h.found_direct hfree hlt hzero)
    · refine Or.inr ⟨?_, h.sectors, hfull⟩
      rw [needs, hslot, if_pos hzero]
      omega
  · rw [if_neg hzero, ← hslot]
    refine Ends.ret (Or.inl (h.found_old ?_ fun hle => absurd hle hno))
    rw [hslot]
    exact hzero

/-- The part of `blockFor` behind the indirect block. -/
theorem wordFor_spec (h : Ahead m i din) (hroot : din.addrs 12 ≠ 0) (hle : NDIRECT ≤ fbn)
    (hfbn : fbn < MAXFILE) :
    Ends E (rsect (din.addrs 12) >>= fun v =>
      if Block.word v (fbn - NDIRECT) = 0 then do
        let b ← takeBlock
        wsect (din.addrs 12) (Block.setWord v (fbn - NDIRECT) b)
        return (din, b)
      else return (din, Block.word v (fbn - NDIRECT))) (Gets m i din fbn) m := by
  have hdata : super.InData (din.addrs 12) := h.inData_slot (t := 12) (by decide) hroot
  have hblk : m.blk (din.addrs 12) = m.data (din.addrs 12) := image_blk hdata
  have hin : (din.addrs 12).toNat < m.sectors := by
    rw [h.sectors]
    exact hdata.2
  have hslot : slot m.blk din (dataSlot fbn) =
      Block.word (m.data (din.addrs 12)) (fbn - NDIRECT) := by
    rw [slot_word hle hroot, hblk]
  refine Ends.step (rsect_ok hin) ?_
  by_cases hzero : Block.word (m.data (din.addrs 12)) (fbn - NDIRECT) = 0
  · have hstore : wsect (din.addrs 12) (Block.setWord (m.data (din.addrs 12)) (fbn - NDIRECT)
        m.freeblock) m.take = .ok ((), m.take.store (din.addrs 12)
          (Block.setWord (m.data (din.addrs 12)) (fbn - NDIRECT) m.freeblock)) :=
      wsect_store (m := m.take) h.sectors hdata.2 _
    rw [if_pos hzero]
    refine Ends.step (take_eq m) (Ends.step hstore (Ends.ret ?_))
    rcases Nat.lt_or_ge m.freeblock.toNat FSSIZE with hlt | hfull
    · refine Or.inl ?_
      rw [← hblk]
      exact h.found_word hlt hroot hle hfbn (by rw [hblk]; exact hzero)
    · refine Or.inr ⟨?_, h.sectors, hfull⟩
      rw [needs, hslot, if_pos hzero]
      omega
  · rw [if_neg hzero, ← hslot]
    refine Ends.ret (Or.inl (h.found_old ?_ fun _ => hroot))
    rw [hslot]
    exact hzero

/-- `blockFor` finds the block, and takes as many as it needs. -/
theorem blockFor_spec (h : Ahead m i din) (hfbn : fbn < MAXFILE)
    (hE : FSSIZE < m.freeblock.toNat + needs m din fbn → E) :
    Ends E (blockFor din fbn) (Gets m i din fbn) m := by
  rcases Nat.lt_or_ge fbn NDIRECT with hlt | hle
  · exact blockFor_direct h hlt
  · unfold blockFor
    rw [if_neg (Nat.not_lt.2 hle)]
    by_cases hzero : din.addrs 12 = 0
    · have hroot : rootFor din m = .ok (din.setAddr 12 m.freeblock, m.take) := by
        rw [rootFor, if_pos hzero]
        rfl
      refine Ends.step hroot ?_
      rw [setAddr_self]
      rcases Nat.lt_or_ge m.freeblock.toNat FSSIZE with hfree | hfull
      · have hword := wordFor_spec (E := E) (h.putAddr hfree hzero)
          (by rw [setAddr_self]; exact freeblock_ne_zero h.toLaid) hle hfbn
        rw [setAddr_self] at hword
        refine hword.mono fun r m' hgets => ?_
        rcases hgets with hf | ⟨hfew, hfull⟩
        · exact Or.inl (hf.of_root h hfree hzero hle)
        · rw [needs_root_new h hfree hzero hle] at hfew
          exact Or.inr ⟨hfew, hfull⟩
      · -- the number of the indirect block is beyond the disk
        have hdie : ¬ m.freeblock.toNat < m.take.sectors := by
          show ¬ m.freeblock.toNat < m.sectors
          rw [h.sectors]
          exact Nat.not_lt.2 hfull
        have hyes : NDIRECT ≤ fbn ∧ din.addrs 12 = 0 := ⟨hle, hzero⟩
        refine Ends.stop (rsect_die hdie) (hE ?_)
        rw [needs, if_pos hyes]
        omega
    · have hroot : rootFor din m = .ok (din, m) := by
        rw [rootFor, if_neg hzero]
        rfl
      exact Ends.step hroot (wordFor_spec h hzero hle hfbn)

/-! ## Writing into the block -/

theorem Ahead.write (h : Ahead m i din) (hfbn : fbn < MAXFILE)
    (hslot : slot m.blk din (dataSlot fbn) = x) (hne : x ≠ 0) (v : Block) :
    Ahead (m.store x v) i din where
  toLaid := by
    have hused := (h.used_slot (dataSlot_lt hfbn) (by rw [hslot]; exact hne)).2
    rw [hslot] at hused
    exact h.toLaid.store hused v
  lt := h.lt
  type := h.type
  sound := by
    have hdata := h.inData_slot (dataSlot_lt hfbn) (by rw [hslot]; exact hne)
    rw [hslot] at hdata
    rw [work_store hdata]
    refine (h.sound.write h.lt h.work_type hfbn (by rw [work_self]; exact hslot) hne fun hdir => ?_).1
    rw [work_self] at hdir
    exact absurd hdir (plain_not_dir din)

/-- The bytes of a file after one round. -/
def grown (c p : List UInt8) : List UInt8 :=
  c ++ p.take (min p.length ((c.length / BSIZE + 1) * BSIZE - c.length))

/-- What the round writes. -/
def spliced (v : Block) (off : Nat) (p : List UInt8) : Block :=
  Bytes.splice v (off - off / BSIZE * BSIZE) (min p.length ((off / BSIZE + 1) * BSIZE - off))
    fun j => p.getD j 0

theorem grown_length (c p : List UInt8) : (grown c p).length =
    c.length + min p.length ((c.length / BSIZE + 1) * BSIZE - c.length) := by
  rw [grown, length_append, length_take, min_eq_left (min_le_left _ _)]

theorem grown_getD {y : Nat} (hy : y / BSIZE = c.length / BSIZE) (v : Block)
    (hv : v.byte (y % BSIZE) = c.getD y 0) :
    (spliced v c.length p).byte (y % BSIZE) = (grown c p).getD y 0 := by
  rw [spliced, Bytes.byte_splice _ _ _ _ (Nat.mod_lt _ (by decide)), hv]
  simp only [grown, BSIZE, getD_eq_getElem?_getD, getElem?_append, getElem?_take] at *
  by_cases hlow : y < c.length
  · rw [if_pos hlow, if_neg (by omega)]
  · rw [if_neg hlow]
    by_cases hin : y - c.length < min p.length ((c.length / 1024 + 1) * 1024 - c.length)
    · rw [if_pos hin, if_pos (by omega)]
      have hindex : y % 1024 - (c.length - c.length / 1024 * 1024) = y - c.length := by omega
      rw [hindex]
    · rw [if_neg hin, if_neg (by omega), getElem?_eq_none (Nat.le_of_not_lt hlow)]

theorem grown_getD_low {y : Nat} (hy : y < c.length) : (grown c p).getD y 0 = c.getD y 0 := by
  simp only [grown, getD_eq_getElem?_getD, getElem?_append, if_pos hy]

theorem Holds.round (h : Holds m.blk din c) (hfbn : c.length / BSIZE < MAXFILE)
    (hp : p ≠ []) (hf : Found m m' i din din' (c.length / BSIZE) x) :
    Holds (m'.store x (spliced (m'.blk x) c.length p)).blk din' (grown c p) := by
  have hlt := dataSlot_lt hfbn
  have hne : slot m'.blk din' (dataSlot (c.length / BSIZE)) ≠ 0 := by
    rw [hf.here]
    exact hf.ne_zero
  have hdata := hf.ahead.inData_slot hlt hne
  rw [hf.here] at hdata
  have hblk := blk_store (m := m') hdata (spliced (m'.blk x) c.length p)
  have hself : ∀ t < SLOTS, t ≠ dataSlot (c.length / BSIZE) → slot m'.blk din' t ≠ x := by
    intro t ht htt
    have hother := hf.ahead.slot_ne_self hlt hne ht htt
    rwa [hf.here] at hother
  have hslot : ∀ t, slot (m'.store x (spliced (m'.blk x) c.length p)).blk din' t =
      slot m'.blk din' t := by
    intro t
    rw [hblk]
    exact slot_update (hself 12 (by decide) (Ne.symm dataSlot_ne))
  have hpos : 0 < p.length := length_pos_iff.2 hp
  have hlen := grown_length c p
  refine ⟨?_, fun bn hbn => ?_, ?_, fun y hy => ?_⟩
  · have hbound := h.bound
    simp only [MAXFILE, NDIRECT, NINDIRECT, BSIZE] at *
    omega
  · rw [hslot]
    by_cases hbf : bn = c.length / BSIZE
    · subst hbf
      refine iff_of_true hne ?_
      simp only [BSIZE] at *
      omega
    · rw [hf.other bn hbn hbf, h.full bn hbn]
      simp only [BSIZE] at *
      omega
  · rw [hf.root, h.root]
    simp only [BSIZE, NDIRECT] at *
    omega
  · rw [fileByte, hslot, hblk]
    by_cases hbf : y / BSIZE = c.length / BSIZE
    · rw [hbf, hf.here, update_self]
      refine grown_getD hbf _ ?_
      by_cases hzero : slot m.blk din (dataSlot (c.length / BSIZE)) = 0
      · -- a new block starts at the end of the file
        have hend : c.length ≤ y := by
          have hnot := (not_congr (h.full _ hfbn)).1 (not_not.2 hzero)
          simp only [BSIZE] at *
          omega
        rw [hf.fresh hzero, getD_eq_default _ _ hend]
        rfl
      · have hold := h.bytes y (by rw [hbf]; exact (h.full _ hfbn).1 hzero)
        rw [fileByte, hbf, ← hf.blk _ hfbn hzero, hf.old hzero] at hold
        exact hold
    · have hlow : y / BSIZE * BSIZE < c.length ∧ y < c.length := by
        simp only [BSIZE] at *
        omega
      have hbn := h.bn_lt hlow.1
      have hused := (h.full _ hbn).2 hlow.1
      rw [update_of_ne (hself _ (dataSlot_lt hbn) fun heq => hbf (dataSlot_inj heq)),
        hf.other _ hbn hbf, hf.blk _ hbn hused, grown_getD_low hlow.2]
      exact h.bytes y hlow.1

/-! ## The loop -/

/-- How many blocks a file of `n` bytes has, the indirect block included. -/
def blocks (n : Nat) : Nat := (n + BSIZE - 1) / BSIZE + if NDIRECT * BSIZE < n then 1 else 0

theorem blocks_eq (n : Nat) : blocks n = (n + 1023) / 1024 + if 12288 < n then 1 else 0 := by
  have hround : n + BSIZE - 1 = n + 1023 := by
    rw [BSIZE]
    omega
  rw [blocks, hround]
  rfl

theorem blocks_mono {n n' : Nat} (h : n ≤ n') : blocks n ≤ blocks n' := by
  rw [blocks_eq, blocks_eq]
  split <;> split <;> omega

theorem Holds.needs_eq (h : Holds m.blk din c)
    (hfbn : c.length / BSIZE < MAXFILE) : needs m din (c.length / BSIZE) =
      (if c.length / 1024 * 1024 < c.length then 0 else 1) +
        if 12 ≤ c.length / 1024 ∧ c.length ≤ 12288 then 1 else 0 := by
  have hfull : _ ↔ c.length / 1024 * 1024 < c.length := h.full _ hfbn
  have hroot : _ ↔ 12288 < c.length := h.root
  rw [needs]
  refine congrArg₂ (· + ·) ?_ ?_
  · rw [← ite_not]
    exact if_congr hfull rfl rfl
  · refine if_congr (and_congr Iff.rfl ?_) rfl rfl
    rw [← not_iff_not, Nat.not_le]
    exact hroot

theorem Holds.blocks_grown (h : Holds m.blk din c)
    (hfbn : c.length / BSIZE < MAXFILE) (hp : p ≠ []) :
    blocks c.length + needs m din (c.length / BSIZE) = blocks (grown c p).length := by
  have hpos : 0 < p.length := length_pos_iff.2 hp
  have hlen : (grown c p).length = c.length + min p.length ((c.length / 1024 + 1) * 1024 - c.length) :=
    grown_length c p
  rw [h.needs_eq hfbn, blocks_eq, blocks_eq, hlen]
  by_cases hlow : c.length ≤ 12288
  · rw [if_neg (Nat.not_lt.2 hlow)]
    split <;> split <;> split <;> omega
  · have hno : ¬(12 ≤ c.length / 1024 ∧ c.length ≤ 12288) := fun hand => hlow hand.2
    rw [if_pos (Nat.lt_of_not_le hlow), if_neg hno]
    split <;> split <;> omega

/-- The file holds `c'` instead of `c`, and the other files are unchanged. -/
structure Appended (m m' : Mk) (i : Nat) (din din' : Dinode) (c c' : List UInt8) : Prop where
  ahead : Ahead m' i din'
  keeps : Keeps m m' i
  fields : ∃ a, din' = { din with addrs := a }
  holds : Holds m'.blk din' c'
  count : m'.freeblock.toNat + blocks c.length = m.freeblock.toNat + blocks c'.length

/-- The appended bytes do not fit: the file gets too long, or there are too few blocks. -/
def Overflows (m : Mk) (c p : List UInt8) : Prop :=
  MAXFILE * BSIZE < c.length + p.length ∨
    FSSIZE + blocks c.length < m.freeblock.toNat + blocks (c.length + p.length)

theorem Overflows.round (hf : m'.freeblock.toNat + blocks c.length =
    m.freeblock.toNat + blocks (grown c p).length) (h : Overflows m' (grown c p)
      (p.drop (min p.length ((c.length / BSIZE + 1) * BSIZE - c.length)))) : Overflows m c p := by
  have hlen := grown_length c p
  have hall : (grown c p).length +
      (p.drop (min p.length ((c.length / BSIZE + 1) * BSIZE - c.length))).length =
      c.length + p.length := by
    rw [hlen, length_drop]
    omega
  rw [Overflows, hall] at h
  refine h.imp id fun hfew => ?_
  omega

theorem Appended.trans {d d' d'' : Dinode} {c c' c'' : List UInt8}
    (h₁ : Appended m m' i d d' c c') (h₂ : Appended m' m'' i d' d'' c' c'') :
    Appended m m'' i d d'' c c'' := by
  obtain ⟨a, ha⟩ := h₁.fields
  obtain ⟨a', ha'⟩ := h₂.fields
  refine ⟨h₂.ahead, h₁.keeps.trans h₂.keeps, ⟨a', by rw [ha', ha]⟩, h₂.holds, ?_⟩
  have hcount₁ := h₁.count
  have hcount₂ := h₂.count
  omega

theorem Found.appended (hf : Found m m' i din din' (c.length / BSIZE) x)
    (h : Holds m.blk din c) (hfbn : c.length / BSIZE < MAXFILE) (hp : p ≠ []) :
    Appended m (m'.store x (spliced (m'.blk x) c.length p)) i din din' c (grown c p) where
  ahead := hf.ahead.write hfbn hf.here hf.ne_zero _
  keeps := hf.keeps.trans (hf.ahead.keeps_store (dataSlot_lt hfbn) hf.here hf.ne_zero _)
  fields := hf.fields
  holds := h.round hfbn hp hf
  count := by
    have hneed := h.blocks_grown hfbn hp
    have hcount : m'.freeblock.toNat = _ := hf.count
    show m'.freeblock.toNat + _ = _
    omega

theorem appendLoop_succ {k off : Nat} {p : List UInt8} (hp : p ≠ []) (hfbn : off / BSIZE < MAXFILE) :
    appendLoop (k + 1) din off p = blockFor din (off / BSIZE) >>= fun r => rsect r.2 >>= fun v =>
      wsect r.2 (spliced v off p) >>= fun _ =>
        appendLoop k r.1 (off + min p.length ((off / BSIZE + 1) * BSIZE - off))
          (p.drop (min p.length ((off / BSIZE + 1) * BSIZE - off))) := by
  rw [appendLoop, if_neg hp, ensure, if_pos hfbn]
  rfl

theorem appendLoop_spec (k : Nat) (hk : p.length ≤ k) (h : Ahead m i din)
    (hc : Holds m.blk din c) (hE : Overflows m c p → E) :
    Ends E (appendLoop k din c.length p) (fun r m' => r.2 = (c ++ p).length ∧
      Appended m m' i din r.1 c (c ++ p)) m := by
  -- by induction on the rounds left; the file grows by what a round writes
  induction k generalizing m din c p with
  | zero =>
    have hnil : p = [] := eq_nil_of_length_eq_zero (Nat.le_zero.1 hk)
    subst hnil
    rw [append_nil]
    exact Ends.ret ⟨rfl, h, Keeps.refl m i, ⟨din.addrs, rfl⟩, hc, rfl⟩
  | succ k ih =>
    by_cases hp : p = []
    · subst hp
      rw [appendLoop, if_pos rfl, append_nil]
      exact Ends.ret ⟨rfl, h, Keeps.refl m i, ⟨din.addrs, rfl⟩, hc, rfl⟩
    have hpos : 0 < p.length := length_pos_iff.2 hp
    have hlen := grown_length c p
    by_cases hfbn : c.length / BSIZE < MAXFILE
    · have hneed := hc.blocks_grown hfbn hp
      have hmono : blocks (grown c p).length ≤ blocks (c.length + p.length) := by
        refine blocks_mono ?_
        omega
      have hfew : FSSIZE < m.freeblock.toNat + needs m din (c.length / BSIZE) → E := by
        refine fun hlt => hE (Or.inr ?_)
        omega
      rw [appendLoop_succ hp hfbn]
      refine (blockFor_spec h hfbn hfew).seq ?_
      rintro ⟨din', x⟩ m' (hf | ⟨hlt, hfull⟩)
      · have hlt := dataSlot_lt hfbn
        have hdata := hf.ahead.inData_slot hlt (by rw [hf.here]; exact hf.ne_zero)
        rw [hf.here] at hdata
        have hblk : m'.blk x = m'.data x := image_blk hdata
        have hread : rsect x m' = .ok (m'.blk x, m') := by
          rw [hblk]
          refine rsect_ok ?_
          rw [hf.ahead.sectors]
          exact hdata.2
        have happ := hf.appended hc hfbn hp
        have hgo := ih (p := p.drop (min p.length ((c.length / BSIZE + 1) * BSIZE - c.length)))
          (by rw [length_drop]; simp only [BSIZE]; omega) happ.ahead happ.holds
          fun hover => hE (hover.round happ.count)
        have hall : grown c p ++ p.drop (min p.length ((c.length / BSIZE + 1) * BSIZE - c.length)) =
            c ++ p := by
          rw [grown, append_assoc, take_append_drop]
        rw [hall, hlen] at hgo
        refine Ends.step hread (Ends.step (wsect_store hf.ahead.sectors hdata.2 _) ?_)
        exact hgo.mono fun r t hr => ⟨hr.1, happ.trans hr.2⟩
      · have hdie : ¬ x.toNat < m'.sectors := by
          rw [hfull.sectors]
          exact Nat.not_lt.2 hfull.beyond
        exact Ends.stop (rsect_die hdie) (hfew hlt)
    · rw [appendLoop, if_neg hp, ensure, if_neg hfbn]
      have hlong : ¬ c.length / 1024 < 268 := hfbn
      have hbig : 274432 < c.length + p.length := by omega
      exact Ends.stop (throw_apply _ m) (hE (Or.inl hbig))

/-! ## Inodes on the disk -/

/-- The image is sound as it is. -/
structure Good (m : Mk) : Prop extends Laid m where
  sound : Sound super none m.image

theorem iblock_lt (hi : i < NINODES) : (super.iblock i).toNat < super.bmapstart := by
  rw [super.toNat_iblock hi]
  have hfit := super.inodes_fit
  have hle : i / IPB ≤ super.ninodes / IPB := Nat.div_le_div_right hi.le
  omega

theorem Laid.iblock_lt (h : Laid m) (hi : i < NINODES) :
    (super.iblock i).toNat < m.freeblock.toNat :=
  (Mkfs.iblock_lt hi).trans_le ((by decide : super.bmapstart ≤ nmeta).trans h.low)

theorem Laid.rsect_iblock (h : Laid m) (hi : i < NINODES) :
    rsect (super.iblock i) m = .ok (m.data (super.iblock i), m) := by
  refine rsect_ok ?_
  rw [h.sectors]
  exact (h.iblock_lt hi).trans_le h.high

/-- Inode `i` is written. -/
def Mk.put (m : Mk) (i : Nat) (d : Dinode) : Mk :=
  m.store (super.iblock i) (Block.setDinode (m.data (super.iblock i)) (i % IPB) d)

theorem put_ino (hi : i < NINODES) (d : Dinode) : (m.put i d).ino = update m.ino i d :=
  Eq.trans (congrArg Image.ino (image_setDinode (d := m.data) (show i < super.ninodes from hi) d)) rfl

theorem put_blk (hi : i < NINODES) (d : Dinode) : (m.put i d).blk = m.blk :=
  Eq.trans (congrArg Image.blk (image_setDinode (d := m.data) (show i < super.ninodes from hi) d)) rfl

theorem put_image (hi : i < NINODES) (d : Dinode) : (m.put i d).image = m.work i d := by
  refine Image.ext ?_ rfl (put_blk hi d)
  show (fun j => plain ((m.put i d).ino j)) = update (fun j => plain (m.ino j)) i (plain d)
  funext j
  rw [put_ino hi d]
  exact apply_update (fun _ => plain) m.ino i d j

theorem winode_eq (h : Laid m) (hi : i < NINODES) (d : Dinode) :
    winode i d m = .ok ((), m.put i d) := by
  rw [winode, bind_ok (h.rsect_iblock hi)]
  exact wsect_store h.sectors ((h.iblock_lt hi).trans_le h.high) _

theorem rinode_eq (h : Laid m) (hi : i < NINODES) : rinode i m = .ok (m.ino i, m) := by
  have hino : m.ino i = super.dinode m.data i := image_ino (show i < super.ninodes from hi)
  rw [rinode, bind_ok (h.rsect_iblock hi), hino]
  rfl

theorem keeps_put (hi : i < NINODES) (d : Dinode) : Keeps m (m.put i d) i := by
  refine ⟨rfl, fun i' _ hne => ⟨?_, fun _ => ?_⟩⟩
  · rw [put_ino hi, update_of_ne hne]
  · rw [put_blk hi]
    exact ⟨fun _ _ => rfl, fun _ _ _ => rfl⟩

theorem Ahead.good (h : Ahead m i din) : Good (m.put i din) where
  toLaid := h.toLaid.store (h.toLaid.iblock_lt h.lt) _
  sound := by
    rw [put_image h.lt]
    exact h.sound

theorem Good.ahead (h : Good m) (hi : i < NINODES) (htype : (m.ino i).type ≠ 0) :
    Ahead m i (m.ino i) where
  toLaid := h.toLaid
  lt := hi
  type := htype
  sound := by
    have hsame : m.work i (m.ino i) = m.image := by
      refine Image.ext ?_ rfl rfl
      exact update_eq_self i _
    rw [hsame]
    exact h.sound

theorem Ahead.resize (h : Ahead m i din) {n : UInt32} (hbound : n.toNat ≤ MAXFILE * BSIZE)
    (hfull : ∀ bn, bn * BSIZE < n.toNat → slot m.blk din (dataSlot bn) ≠ 0) :
    Ahead m i { din with size := n } where
  toLaid := h.toLaid
  lt := h.lt
  type := h.type
  sound := by
    have hself := work_self m i din
    have hset := h.sound.setIno_same h.lt (d := plain { din with size := n })
      (by rw [hself, plain_type_eq_zero, plain_type_eq_zero])
      (fun _ j _ => by rw [hself]; rfl)
      fun _ => ⟨hbound, hfull, fun hdir => absurd hdir (plain_not_dir _)⟩
    have heq : (m.work i din).setIno i (plain { din with size := n }) =
        m.work i { din with size := n } := by
      refine Image.ext ?_ rfl rfl
      exact update_idem _ _ _
    rwa [heq] at hset

/-! ## `iappend` -/

/-- Inode `i` is a file with the bytes `c`. -/
structure File (m : Mk) (i : Nat) (c : List UInt8) : Prop where
  lt : i < NINODES
  type : (m.ino i).type ≠ 0
  size : (m.ino i).size.toNat = c.length
  holds : Holds m.blk (m.ino i) c

/-- Inode `i` holds `c'` instead of `c`, and no other inode changed. -/
structure Wrote (m m' : Mk) (i : Nat) (c c' : List UInt8) : Prop where
  good : Good m'
  keeps : Keeps m m' i
  type : (m'.ino i).type = (m.ino i).type
  nlink : (m'.ino i).nlink = (m.ino i).nlink
  file : File m' i c'
  count : m'.freeblock.toNat + blocks c.length = m.freeblock.toNat + blocks c'.length

theorem iappend_spec (hg : Good m) (h : File m i c) (hE : Overflows m c p → E) :
    Ends E (iappend i p) (fun _ m' => Wrote m m' i c (c ++ p)) m := by
  refine Ends.step (rinode_eq hg.toLaid h.lt) ?_
  rw [h.size]
  refine (appendLoop_spec p.length (Nat.le_refl _) (hg.ahead h.lt h.type) h.holds hE).seq ?_
  rintro ⟨din, off⟩ m' ⟨rfl, happ⟩
  have hbound := happ.holds.bound
  have hnat : (UInt32.ofNat (c ++ p).length).toNat = (c ++ p).length := by
    refine UInt32.toNat_ofNat_of_lt' ?_
    have hsize : (c ++ p).length ≤ 274432 := hbound
    exact hsize.trans_lt (by decide)
  have hfull : ∀ bn, bn * BSIZE < (UInt32.ofNat (c ++ p).length).toNat →
      slot m'.blk din (dataSlot bn) ≠ 0 := by
    rw [hnat]
    exact fun bn hbn => (happ.holds.full bn (happ.holds.bn_lt hbn)).2 hbn
  have hnew := happ.ahead.resize (by rw [hnat]; exact hbound) hfull
  have hino : (m'.put i { din with size := UInt32.ofNat (c ++ p).length }).ino i =
      { din with size := UInt32.ofNat (c ++ p).length } := by
    rw [put_ino h.lt, update_self]
  obtain ⟨a, ha⟩ := happ.fields
  have htype : din.type = (m.ino i).type := Eq.trans (congrArg Dinode.type ha) rfl
  have hnlink : din.nlink = (m.ino i).nlink := Eq.trans (congrArg Dinode.nlink ha) rfl
  refine Ends.of_eq (winode_eq happ.ahead.toLaid h.lt _) ?_
  refine ⟨hnew.good, happ.keeps.trans (keeps_put h.lt _), ?_, ?_, ⟨h.lt, ?_, ?_, ?_⟩, happ.count⟩
  · rw [hino]
    exact htype
  · rw [hino]
    exact hnlink
  · rw [hino]
    exact happ.ahead.type
  · rw [hino]
    exact hnat
  · rw [hino, put_blk h.lt]
    exact happ.holds.congr (fun _ _ => rfl) fun _ _ _ => rfl

/-! ## `copyFile` -/

theorem Wrote.trans {c c' c'' : List UInt8} (h₁ : Wrote m m' i c c') (h₂ : Wrote m' m'' i c' c'') :
    Wrote m m'' i c c'' where
  good := h₂.good
  keeps := h₁.keeps.trans h₂.keeps
  type := h₂.type.trans h₁.type
  nlink := h₂.nlink.trans h₁.nlink
  file := h₂.file
  count := by
    have hcount₁ := h₁.count
    have hcount₂ := h₂.count
    omega

theorem Overflows.append (h : Overflows m c p) (q : List UInt8) : Overflows m c (p ++ q) := by
  have hlen : (p ++ q).length = p.length + q.length := length_append
  have hmono : blocks (c.length + p.length) ≤ blocks (c.length + (p ++ q).length) := by
    refine blocks_mono ?_
    omega
  refine h.imp (fun hlong => ?_) fun hfew => ?_
  · omega
  · omega

theorem Overflows.after {c p q : List UInt8} (hw : Wrote m m' i c (c ++ p))
    (h : Overflows m' (c ++ p) q) : Overflows m c (p ++ q) := by
  have hcount := hw.count
  have hlen : (c ++ p).length + q.length = c.length + (p ++ q).length := by
    rw [length_append, length_append, Nat.add_assoc]
  rw [Overflows, hlen] at h
  refine h.imp id fun hfew => ?_
  omega

/-- The reads of a file go into it one after the other. -/
theorem copyFile_spec (ps : List (List UInt8)) (hg : Good m) (h : File m i c)
    (hE : Overflows m c ps.flatten → E) :
    Ends E (copyFile i ps) (fun _ m' => Wrote m m' i c (c ++ ps.flatten)) m := by
  induction ps generalizing m c with
  | nil =>
    rw [flatten_nil, append_nil]
    exact Ends.ret ⟨hg, Keeps.refl m i, rfl, rfl, h, rfl⟩
  | cons p ps ih =>
    refine (iappend_spec hg h fun hover => hE (hover.append ps.flatten)).seq ?_
    rintro - m' hw
    refine (ih hw.good hw.file fun hover => hE (hover.after hw)).mono fun _ m'' hw' => ?_
    rw [append_assoc] at hw'
    exact hw.trans hw'

end Xv6Schedulers.Mkfs

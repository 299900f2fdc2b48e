import Xv6Schedulers.Fs.Image

/-!
# Sound — images whose blocks are accounted for

`Sound hand im` and how it survives the elementary changes of an image: allocating a block, putting
it into an inode, writing a data block, and changing the fields of an inode.  Each lemma also says
what the change does to the directory tree.
-/

namespace Xv6Schedulers.Fs

open Lib Log Function

variable {sb : Super}

/-- Where a block number can be: in a slot of an inode, or just allocated and in no inode yet. -/
abbrev Place := Option (Nat × Nat)

/-- The block number at a place; only the slots of allocated inodes count. -/
def Image.place (sb : Super) (im : Image) (hand : Option BlockNo) : Place → Option BlockNo
  | none => hand
  | some (i, j) =>
      if i < sb.ninodes ∧ j < SLOTS ∧ (im.ino i).type ≠ 0 ∧ slot im.blk (im.ino i) j ≠ 0 then
        some (slot im.blk (im.ino i) j)
      else none

def Image.Used (sb : Super) (im : Image) (b : BlockNo) : Prop := sb.InData b ∧ im.bit b = true

/-- What holds of an allocated inode: the blocks below its size are there, and the entries of a
directory name inodes of the disk. -/
structure Fit (sb : Super) (blk : BlockNo → Block) (d : Dinode) : Prop where
  bound : d.size.toNat ≤ MAXFILE * BSIZE
  full : ∀ bn, bn * BSIZE < d.size.toNat → slot blk d (dataSlot bn) ≠ 0
  named : d.type = T_DIR → ∀ de ∈ ents blk d, de.inum.toNat < sb.ninodes

/-- Every data block in use is in exactly one place, and the inodes are as they should be. -/
structure Sound (sb : Super) (hand : Option BlockNo) (im : Image) : Prop where
  own : Exact (im.place sb hand) (im.Used sb)
  blank : ∀ b, hand = some b → im.blk b = fun _ => 0
  reserved : ∀ b : BlockNo, b.toNat < sb.dataStart → im.bit b = true
  beyond : ∀ i, sb.ninodes ≤ i → (im.ino i).type = 0
  fit : ∀ i < sb.ninodes, (im.ino i).type ≠ 0 → Fit sb im.blk (im.ino i)

section Places

variable {im im' : Image} {hand hand' : Option BlockNo} {b : BlockNo} {i j : Nat}

theorem place_eq_some : im.place sb hand (some (i, j)) = some b ↔
    i < sb.ninodes ∧ j < SLOTS ∧ (im.ino i).type ≠ 0 ∧ slot im.blk (im.ino i) j = b ∧ b ≠ 0 := by
  simp only [Image.place]
  constructor
  · intro h
    split at h
    · rename_i hc
      cases h
      exact ⟨hc.1, hc.2.1, hc.2.2.1, rfl, hc.2.2.2⟩
    · cases h
  · rintro ⟨hi, hj, htype, rfl, hne⟩
    exact if_pos ⟨hi, hj, htype, hne⟩

theorem place_of_slot (hi : i < sb.ninodes) (hj : j < SLOTS) (htype : (im.ino i).type ≠ 0)
    (hslot : slot im.blk (im.ino i) j ≠ 0) :
    im.place sb hand (some (i, j)) = some (slot im.blk (im.ino i) j) :=
  if_pos ⟨hi, hj, htype, hslot⟩

theorem place_of_zero (hslot : slot im.blk (im.ino i) j = 0) :
    im.place sb hand (some (i, j)) = none :=
  if_neg fun h => h.2.2.2 hslot

theorem place_congr (htype : (im'.ino i).type = 0 ↔ (im.ino i).type = 0)
    (hslot : (im.ino i).type ≠ 0 → j < SLOTS →
      slot im'.blk (im'.ino i) j = slot im.blk (im.ino i) j) :
    im'.place sb hand' (some (i, j)) = im.place sb hand (some (i, j)) := by
  by_cases hfree : (im.ino i).type = 0
  · have hfree' := htype.2 hfree
    simp [Image.place, hfree, hfree']
  · have hfree' : ¬ (im'.ino i).type = 0 := fun h => hfree (htype.1 h)
    by_cases hj : j < SLOTS
    · simp only [Image.place, hslot hfree hj, ne_eq, hfree, hfree', not_false_eq_true, true_and]
    · simp [Image.place, hj]

theorem zero_not_inData : ¬ sb.InData 0 := by
  rintro ⟨h, _⟩
  exact Nat.not_succ_le_zero _ h

theorem Image.Used.ne_zero (h : im.Used sb b) : b ≠ 0 := by
  rintro rfl
  exact zero_not_inData h.1

end Places

namespace Sound

variable {im : Image} {hand : Option BlockNo} {b : BlockNo} {i j : Nat}

theorem used_slot (h : Sound sb hand im) (hi : i < sb.ninodes) (hj : j < SLOTS)
    (htype : (im.ino i).type ≠ 0) (hslot : slot im.blk (im.ino i) j ≠ 0) :
    im.Used sb (slot im.blk (im.ino i) j) :=
  h.own.used_of (place_of_slot hi hj htype hslot)

theorem slot_ne_of_place (h : Sound sb hand im) (hi : i < sb.ninodes) (hj : j < SLOTS)
    (htype : (im.ino i).type ≠ 0) {pl : Place} (hpl : im.place sb hand pl = some b)
    (hne : pl ≠ some (i, j)) : slot im.blk (im.ino i) j ≠ b := by
  intro hslot
  have hb : b ≠ 0 := (h.own.used_of hpl).ne_zero
  have hplace : im.place sb hand (some (i, j)) = some b :=
    place_eq_some.2 ⟨hi, hj, htype, hslot, hb⟩
  exact hne (h.own.unique hpl hplace)

theorem slot_ne_of_free (h : Sound sb hand im) (hi : i < sb.ninodes) (hj : j < SLOTS)
    (htype : (im.ino i).type ≠ 0) (hdata : sb.InData b) (hfree : ¬ im.Used sb b) :
    slot im.blk (im.ino i) j ≠ b := by
  intro hslot
  have hb : b ≠ 0 := by
    rintro rfl
    exact zero_not_inData hdata
  exact hfree (h.own.used_of (place_eq_some.2 ⟨hi, hj, htype, hslot, hb⟩))

theorem Fit.update {blk : BlockNo → Block} {d : Dinode} {v : Block} (h : Fit sb blk d)
    (hne : ∀ j < SLOTS, slot blk d j ≠ b) :
    Fit sb (Function.update blk b v) d ∧ node (Function.update blk b v) d = node blk d := by
  have hroot : d.addrs 12 ≠ b := hne 12 (by decide)
  have hents : ents (Function.update blk b v) d = ents blk d := ents_update hne h.bound
  refine ⟨⟨h.bound, ?_, ?_⟩, ?_⟩
  · intro bn hbn
    rw [slot_update hroot]
    exact h.full bn hbn
  · rw [hents]
    exact h.named
  · rw [node, hents, node]

theorem bn_lt {d : Dinode} {blk : BlockNo → Block} (h : Fit sb blk d) {bn : Nat}
    (hbn : bn * BSIZE < d.size.toNat) : bn < MAXFILE := by
  have hbound := h.bound
  simp only [MAXFILE, NDIRECT, NINDIRECT, BSIZE] at *
  omega

theorem tree_setBlk (h : Sound sb hand im) {v : Block}
    (hne : ∀ i < sb.ninodes, (im.ino i).type ≠ 0 → ∀ j < SLOTS, slot im.blk (im.ino i) j ≠ b) :
    (im.setBlk b v).tree = im.tree := by
  funext i
  show node (update im.blk b v) (im.ino i) = node im.blk (im.ino i)
  by_cases htype : (im.ino i).type = 0
  · simp only [node, htype]
    rfl
  · have hi : i < sb.ninodes := Nat.lt_of_not_le fun hle => htype (h.beyond i hle)
    exact (Fit.update (h.fit i hi htype) (hne i hi htype)).2

theorem alloc (h : Sound sb none im) (hdata : sb.InData b) (hfree : im.bit b = false) :
    Sound sb (some b) ((im.setBit b true).setBlk b fun _ => 0) ∧
      ((im.setBit b true).setBlk b fun _ => 0).tree = im.tree := by
  have hunused : ¬ im.Used sb b := by
    rintro ⟨_, hbit⟩
    rw [hfree] at hbit
    cases hbit
  have hne : ∀ i < sb.ninodes, (im.ino i).type ≠ 0 → ∀ j < SLOTS, slot im.blk (im.ino i) j ≠ b :=
    fun i hi htype j hj => h.slot_ne_of_free hi hj htype hdata hunused
  refine ⟨⟨?_, ?_, ?_, h.beyond, ?_⟩, h.tree_setBlk hne⟩
  · have hplace : ((im.setBit b true).setBlk b fun _ => 0).place sb (some b) =
        update (im.place sb none) none (some b) := by
      funext pl
      rcases pl with _ | ⟨i, j⟩
      · rw [update_self]
        rfl
      · rw [update_of_ne (by simp)]
        by_cases hi : i < sb.ninodes
        · refine place_congr Iff.rfl fun htype hj => ?_
          exact slot_update (hne i hi htype 12 (by decide))
        · simp [Image.place, hi]
    rw [hplace]
    refine (h.own.take hunused rfl).congr fun x => ?_
    by_cases hx : x = b
    · subst hx
      simp [Image.Used, Image.setBit, Image.setBlk, hdata]
    · simp [Image.Used, Image.setBit, Image.setBlk, hx]
  · rintro x ⟨⟩
    exact update_self b _ _
  · intro x hx
    have hxb : x ≠ b := by
      rintro rfl
      exact Nat.not_lt.2 hdata.1 hx
    show update im.bit b true x = true
    rw [update_of_ne hxb]
    exact h.reserved x hx
  · intro i hi htype
    exact (Fit.update (h.fit i hi htype) (hne i hi htype)).1

/-! ### Changes of one inode -/

theorem place_setIno_of_ne (im : Image) (hand hand' : Option BlockNo) {d : Dinode} {i' : Nat}
    (hne : i' ≠ i) :
    (im.setIno i d).place sb hand' (some (i', j)) = im.place sb hand (some (i', j)) := by
  have hkeep : (im.setIno i d).ino i' = im.ino i' := update_of_ne hne _ _
  refine place_congr (by rw [hkeep]) fun _ _ => ?_
  rw [hkeep]
  rfl

theorem setIno (h : Sound sb hand im) (hi : i < sb.ninodes) {d : Dinode} {hand' : Option BlockNo}
    (hown : Exact ((im.setIno i d).place sb hand') (im.Used sb))
    (hblank : ∀ b, hand' = some b → im.blk b = fun _ => 0)
    (hfit : d.type ≠ 0 → Fit sb im.blk d) : Sound sb hand' (im.setIno i d) where
  own := hown
  blank := hblank
  reserved := h.reserved
  beyond i' hle := by
    have hne : i' ≠ i := by omega
    show (update im.ino i d i').type = 0
    rw [update_of_ne hne]
    exact h.beyond i' hle
  fit i' hi' := by
    show (update im.ino i d i').type ≠ 0 → Fit sb im.blk (update im.ino i d i')
    by_cases hne : i' = i
    · subst hne
      rw [update_self]
      exact hfit
    · rw [update_of_ne hne]
      exact h.fit i' hi'

theorem setIno_same (h : Sound sb hand im) (hi : i < sb.ninodes) {d : Dinode}
    (htype : d.type = 0 ↔ (im.ino i).type = 0)
    (hslot : (im.ino i).type ≠ 0 → ∀ j < SLOTS, slot im.blk d j = slot im.blk (im.ino i) j)
    (hfit : d.type ≠ 0 → Fit sb im.blk d) : Sound sb hand (im.setIno i d) := by
  refine h.setIno hi ?_ h.blank hfit
  have hplace : (im.setIno i d).place sb hand = im.place sb hand := by
    funext pl
    rcases pl with _ | ⟨i', j⟩
    · rfl
    · by_cases hne : i' = i
      · subst hne
        have hself : (im.setIno i' d).ino i' = d := update_self _ _ _
        refine place_congr (by rw [hself]; exact htype) fun hall hj => ?_
        rw [hself]
        exact hslot hall j hj
      · exact place_setIno_of_ne im _ _ hne
  rw [hplace]
  exact h.own

theorem tree_setIno {d : Dinode} : (im.setIno i d).tree = update im.tree i (node im.blk d) := by
  funext i'
  show node im.blk (update im.ino i d i') = _
  by_cases hne : i' = i
  · subst hne
    rw [update_self, update_self]
  · rw [update_of_ne hne, update_of_ne hne]
    rfl

theorem tree_setIno_same {d : Dinode} (hnode : node im.blk d = node im.blk (im.ino i)) :
    (im.setIno i d).tree = im.tree := by
  rw [tree_setIno, hnode]
  exact update_eq_self i _

theorem putAddr (h : Sound sb (some b) im) (hi : i < sb.ninodes) (htype : (im.ino i).type ≠ 0)
    {j : Fin 13} (hzero : (im.ino i).addrs j = 0) :
    Sound sb none (im.setIno i ((im.ino i).setAddr j b)) ∧
      (im.setIno i ((im.ino i).setAddr j b)).tree = im.tree := by
  have hb : b ≠ 0 := (h.own.used_of (k := none) rfl).ne_zero
  have hslot : ∀ t, slot im.blk ((im.ino i).setAddr j b) t =
      if t = j.val then b else slot im.blk (im.ino i) t := by
    intro t
    refine slot_setAddr fun hj => ⟨?_, h.blank b rfl⟩
    rw [← hj]
    exact hzero
  have hold : slot im.blk (im.ino i) j.val = 0 := by
    rw [slot_direct j.isLt, Fin.ofNat_val_eq_self]
    exact hzero
  have hfit := h.fit i hi htype
  have hkeep : ∀ bn, bn * BSIZE < (im.ino i).size.toNat →
      slot im.blk ((im.ino i).setAddr j b) (dataSlot bn) = slot im.blk (im.ino i) (dataSlot bn) := by
    intro bn hbn
    rw [hslot, if_neg]
    intro heq
    exact hfit.full bn hbn (heq ▸ hold)
  have hents : ents im.blk ((im.ino i).setAddr j b) = ents im.blk (im.ino i) :=
    ents_congr rfl fun bn hbn => by rw [hkeep bn hbn]
  refine ⟨h.setIno hi ?_ (by rintro x ⟨⟩) fun _ => ⟨hfit.bound, ?_, ?_⟩, tree_setIno_same ?_⟩
  · have hplace : (im.setIno i ((im.ino i).setAddr j b)).place sb none =
        update (update (im.place sb (some b)) none none)
          (some (i, j.val)) (some b) := by
      funext pl
      rcases pl with _ | ⟨i', t⟩
      · rw [update_of_ne (by simp), update_self]
        rfl
      · by_cases hne : i' = i
        · subst hne
          have hself : (im.setIno i' ((im.ino i').setAddr j b)).ino i' = (im.ino i').setAddr j b :=
            update_self _ _ _
          by_cases htj : t = j.val
          · subst htj
            rw [update_self]
            refine place_eq_some.2 ⟨hi, Nat.lt_of_lt_of_le j.isLt (by decide), ?_, ?_, hb⟩
            · rw [hself]
              exact htype
            · rw [hself]
              exact (hslot _).trans (if_pos rfl)
          · rw [update_of_ne (by simpa using htj), update_of_ne (by simp)]
            refine place_congr (by rw [hself]; rfl) fun _ _ => ?_
            rw [hself]
            exact (hslot t).trans (if_neg htj)
        · rw [update_of_ne (by simp [hne]), update_of_ne (by simp)]
          exact place_setIno_of_ne im _ _ hne
    rw [hplace]
    exact h.own.move rfl (place_of_zero hold)
  · intro bn hbn
    rw [hkeep bn hbn]
    exact hfit.full bn hbn
  · rw [hents]
    exact hfit.named
  · rw [node, hents]
    rfl

theorem fit_of_size {blk : BlockNo → Block} {d : Dinode} (hsize : d.size = 0) : Fit sb blk d where
  bound := by
    rw [hsize]
    exact Nat.zero_le _
  full bn hbn := by
    rw [hsize] at hbn
    exact absurd hbn (Nat.not_lt_zero _)
  named _ de hde := by
    rw [ents, hsize] at hde
    simp at hde

theorem place_of_bare (im : Image) (hand : Option BlockNo)
    (hbare : (im.ino i).type = 0 ∨ ∀ t, (im.ino i).addrs t = 0) :
    im.place sb hand (some (i, j)) = none := by
  rcases hbare with hfree | haddrs
  · simp [Image.place, hfree]
  · refine place_of_zero ?_
    unfold slot
    split
    · exact haddrs _
    · rw [if_pos (haddrs 12)]

theorem setIno_bare (h : Sound sb none im) (hi : i < sb.ninodes) {d : Dinode}
    (hold : (im.ino i).type = 0 ∨ ∀ t, (im.ino i).addrs t = 0)
    (hnew : d.type = 0 ∨ ∀ t, d.addrs t = 0) (hsize : d.type ≠ 0 → d.size = 0) :
    Sound sb none (im.setIno i d) := by
  refine h.setIno hi ?_ h.blank fun htype => fit_of_size (hsize htype)
  have hplace : (im.setIno i d).place sb none = im.place sb none := by
    funext pl
    rcases pl with _ | ⟨i', j⟩
    · rfl
    · by_cases hne : i' = i
      · subst hne
        have hself : (im.setIno i' d).ino i' = d := update_self _ _ _
        rw [place_of_bare im none hold, place_of_bare _ none (by rw [hself]; exact hnew)]
      · exact place_setIno_of_ne im _ _ hne
  rw [hplace]
  exact h.own

theorem fresh (h : Sound sb none im) (hi : i < sb.ninodes) (hfree : (im.ino i).type = 0)
    {d : Dinode} (haddrs : ∀ j, d.addrs j = 0) (hsize : d.size = 0) :
    Sound sb none (im.setIno i d) :=
  h.setIno_bare hi (Or.inl hfree) (Or.inr haddrs) fun _ => hsize

/-! ### Changes of one block -/

theorem slot_ne_slot (h : Sound sb hand im) {i' t : Nat} (hi : i < sb.ninodes) (hj : j < SLOTS)
    (htype : (im.ino i).type ≠ 0) (hslot : slot im.blk (im.ino i) j ≠ 0) (hi' : i' < sb.ninodes)
    (ht : t < SLOTS) (htype' : (im.ino i').type ≠ 0) (hne : (i, j) ≠ (i', t)) :
    slot im.blk (im.ino i') t ≠ slot im.blk (im.ino i) j :=
  h.slot_ne_of_place hi' ht htype' (place_of_slot hi hj htype hslot) fun heq =>
    hne (Option.some.inj heq)

theorem putWord (h : Sound sb (some b) im) (hi : i < sb.ninodes) (htype : (im.ino i).type ≠ 0)
    (hroot : (im.ino i).addrs 12 ≠ 0) {k : Nat} (hk : k < NINDIRECT)
    (hzero : Block.word (im.blk ((im.ino i).addrs 12)) k = 0) :
    Sound sb none (im.setBlk ((im.ino i).addrs 12)
        (Block.setWord (im.blk ((im.ino i).addrs 12)) k b)) ∧
      (im.setBlk ((im.ino i).addrs 12)
        (Block.setWord (im.blk ((im.ino i).addrs 12)) k b)).tree = im.tree := by
  have hb : b ≠ 0 := (h.own.used_of (k := none) rfl).ne_zero
  have hk' : k < 256 := hk
  have hin : 13 + k < SLOTS := by
    show 13 + k < 269
    omega
  have hother : ∀ i' j', i' < sb.ninodes → j' < SLOTS → (im.ino i').type ≠ 0 →
      (i', j') ≠ (i, 12) → slot im.blk (im.ino i') j' ≠ (im.ino i).addrs 12 := by
    intro i' j' hi' hj' htype' hne
    exact h.slot_ne_slot (j := 12) hi (by decide) htype hroot hi' hj' htype' (Ne.symm hne)
  have hold : slot im.blk (im.ino i) (13 + k) = 0 := by
    rw [slot_indirect (by omega) hroot, Nat.add_sub_cancel_left]
    exact hzero
  have hfit := h.fit i hi htype
  -- the inode itself: one slot is filled, its other blocks are not the indirect block
  have hents : ents (update im.blk ((im.ino i).addrs 12)
      (Block.setWord (im.blk ((im.ino i).addrs 12)) k b)) (im.ino i) = ents im.blk (im.ino i) := by
    refine ents_congr rfl fun bn hbn => ?_
    have hlt := dataSlot_lt (bn_lt hfit hbn)
    have hne : dataSlot bn ≠ 13 + k := fun heq => hfit.full bn hbn (heq ▸ hold)
    rw [slot_setWord hk hlt hroot, if_neg hne, update_of_ne]
    exact hother i _ hi hlt htype (by simp [dataSlot_ne])
  have hfit' : Fit sb (update im.blk ((im.ino i).addrs 12)
      (Block.setWord (im.blk ((im.ino i).addrs 12)) k b)) (im.ino i) := by
    refine ⟨hfit.bound, ?_, ?_⟩
    · intro bn hbn
      rw [slot_setWord hk (dataSlot_lt (bn_lt hfit hbn)) hroot]
      split
      · exact hb
      · exact hfit.full bn hbn
    · rw [hents]
      exact hfit.named
  have hrest : ∀ i', i' < sb.ninodes → (im.ino i').type ≠ 0 → i' ≠ i → ∀ j' < SLOTS,
      slot im.blk (im.ino i') j' ≠ (im.ino i).addrs 12 :=
    fun i' hi' htype' hne j' hj' => hother i' j' hi' hj' htype' (by simp [hne])
  refine ⟨⟨?_, by rintro x ⟨⟩, h.reserved, h.beyond, ?_⟩, ?_⟩
  · have hplace : (im.setBlk ((im.ino i).addrs 12)
        (Block.setWord (im.blk ((im.ino i).addrs 12)) k b)).place sb none =
        update (update (im.place sb (some b)) none none)
          (some (i, 13 + k)) (some b) := by
      funext pl
      rcases pl with _ | ⟨i', t⟩
      · rw [update_of_ne (by simp), update_self]
        rfl
      · by_cases hne : i' = i
        · subst hne
          by_cases htk : t = 13 + k
          · subst htk
            rw [update_self]
            refine place_eq_some.2 ⟨hi, hin, htype, ?_, hb⟩
            exact (slot_setWord hk hin hroot).trans (if_pos rfl)
          · rw [update_of_ne (by simpa using htk), update_of_ne (by simp)]
            refine place_congr Iff.rfl fun _ ht => ?_
            exact (slot_setWord hk ht hroot).trans (if_neg htk)
        · rw [update_of_ne (by simp [hne]), update_of_ne (by simp)]
          by_cases hi' : i' < sb.ninodes
          · refine place_congr Iff.rfl fun htype' _ => slot_update ?_
            exact hrest i' hi' htype' hne 12 (by decide)
          · simp [Image.place, hi']
    rw [hplace]
    exact h.own.move rfl (place_of_zero hold)
  · intro i' hi' htype'
    by_cases hne : i' = i
    · subst hne
      exact hfit'
    · exact (Fit.update (h.fit i' hi' htype') (hrest i' hi' htype' hne)).1
  · funext i'
    show node _ (im.ino i') = node im.blk (im.ino i')
    by_cases hne : i' = i
    · subst hne
      simp only [node]
      exact congrArg _ (by rw [← hents]; rfl)
    · by_cases htype' : (im.ino i').type = 0
      · simp only [node, htype']
        rfl
      · have hi' : i' < sb.ninodes := Nat.lt_of_not_le fun hle => htype' (h.beyond i' hle)
        exact (Fit.update (h.fit i' hi' htype') (hrest i' hi' htype' hne)).2

theorem write (h : Sound sb none im) (hi : i < sb.ninodes) (htype : (im.ino i).type ≠ 0)
    {bn : Nat} (hbn : bn < MAXFILE) (hslot : slot im.blk (im.ino i) (dataSlot bn) = b) (hb : b ≠ 0)
    {v : Block} (hnamed : (im.ino i).type = T_DIR →
      ∀ de ∈ ents (update im.blk b v) (im.ino i), de.inum.toNat < sb.ninodes) :
    Sound sb none (im.setBlk b v) ∧ (im.setBlk b v).tree =
        update im.tree i (node (update im.blk b v) (im.ino i)) := by
  have hlt := dataSlot_lt hbn
  have hroots : ∀ i', i' < sb.ninodes → (im.ino i').type ≠ 0 → slot im.blk (im.ino i') 12 ≠ b := by
    intro i' hi' htype'
    rw [← hslot]
    refine h.slot_ne_slot hi hlt htype (by rwa [hslot]) hi' (by decide) htype' ?_
    simp [dataSlot_ne]
  have hrest : ∀ i', i' < sb.ninodes → (im.ino i').type ≠ 0 → i' ≠ i → ∀ j' < SLOTS,
      slot im.blk (im.ino i') j' ≠ b := by
    intro i' hi' htype' hne j' hj'
    rw [← hslot]
    exact h.slot_ne_slot hi hlt htype (by rwa [hslot]) hi' hj' htype' (by simp [Ne.symm hne])
  have hfit := h.fit i hi htype
  refine ⟨⟨?_, by rintro x ⟨⟩, h.reserved, h.beyond, ?_⟩, ?_⟩
  · have hplace : (im.setBlk b v).place sb none = im.place sb none := by
      funext pl
      rcases pl with _ | ⟨i', t⟩
      · rfl
      · by_cases hi' : i' < sb.ninodes
        · exact place_congr Iff.rfl fun htype' _ => slot_update (hroots i' hi' htype')
        · simp [Image.place, hi']
    rw [hplace]
    exact h.own
  · intro i' hi' htype'
    by_cases hne : i' = i
    · subst hne
      refine ⟨hfit.bound, ?_, hnamed⟩
      intro bn' hbn'
      have hroot := hroots i' hi htype
      rw [show slot (im.setBlk b v).blk ((im.setBlk b v).ino i') (dataSlot bn') =
        slot im.blk (im.ino i') (dataSlot bn') from slot_update hroot]
      exact hfit.full bn' hbn'
    · exact (Fit.update (h.fit i' hi' htype') (hrest i' hi' htype' hne)).1
  · funext i'
    by_cases hne : i' = i
    · subst hne
      rw [update_self]
      rfl
    · rw [update_of_ne hne]
      show node (update im.blk b v) (im.ino i') = node im.blk (im.ino i')
      by_cases htype' : (im.ino i').type = 0
      · simp only [node, htype']
        rfl
      · have hi' : i' < sb.ninodes := Nat.lt_of_not_le fun hle => htype' (h.beyond i' hle)
        exact (Fit.update (h.fit i' hi' htype') (hrest i' hi' htype' hne)).2

end Sound

end Xv6Schedulers.Fs

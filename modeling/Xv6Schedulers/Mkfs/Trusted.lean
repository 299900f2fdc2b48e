import Xv6Schedulers.Mkfs.Directory

/-!
# Trusted — the image that `mkfs` leaves

* `fixRoot` rounds the size of the root up, and `balloc` marks the blocks below `freeblock`.
* `Trusted m args`: the image is sound for the kernel, and the root names the arguments.
* `mkfs_image`: so it is when the inodes suffice and the entries do not fill whole blocks; the size of
  a root whose blocks are full is rounded up past its last block.
-/

namespace Xv6Schedulers.Mkfs

open Lib Log Fs Exec Function List

variable {m m' : Mk} {i : Nat} {E : Prop} {des : List (Nat × Name)} {args : List Input} {d : Disk}

/-! ## The bitmap -/

theorem bit_usedBits {n j : Nat} (hj : j < BPB) : Block.bit (usedBits n) j = decide (j < n) := by
  induction n with
  | zero =>
    have hzero : Block.bit (fun _ => 0) j = false := by
      unfold Block.bit Bytes.byte
      simp
    rw [usedBits, hzero]
    rfl
  | succ n ih =>
    rw [usedBits, bit_setBit _ hj, ih, ← Bool.decide_or]
    refine decide_eq_decide.2 ?_
    omega

/-- The image with the bitmap written. -/
def Mk.mark (m : Mk) : Mk := m.store (UInt32.ofNat super.bmapstart) (usedBits m.freeblock.toNat)

theorem bblock_eq {b : Nat} (hb : b < super.size) : super.bblock b = UInt32.ofNat super.bmapstart := by
  have hdiv : b / BPB = 0 := Nat.div_eq_of_lt (hb.trans (by decide))
  rw [Super.bblock, hdiv, Nat.zero_add]

/-- What the image means then. -/
def Mk.marked (m : Mk) : Image where
  ino := m.ino
  bit b := decide (b.toNat < m.freeblock.toNat)
  blk := m.blk

theorem mark_image (h : Laid m) : super.image m.mark.data = m.marked := by
  refine Image.ext ?_ ?_ ?_
  · funext i
    show (if i < super.ninodes then super.dinode m.mark.data i else Dinode.zero) =
      if i < super.ninodes then super.dinode m.data i else Dinode.zero
    by_cases hi : i < super.ninodes
    · have hne : super.iblock i ≠ UInt32.ofNat super.bmapstart := by
        rw [← bblock_eq (b := 0) (by decide)]
        exact super.iblock_ne_bblock hi (by decide)
      have hblock : m.mark.data (super.iblock i) = m.data (super.iblock i) := update_of_ne hne _ _
      rw [if_pos hi, if_pos hi, Super.dinode, hblock]
      rfl
    · rw [if_neg hi, if_neg hi]
  · funext b
    by_cases hb : b.toNat < super.size
    · have hblock : m.mark.data (super.bblock b.toNat) = usedBits m.freeblock.toNat := by
        rw [bblock_eq hb]
        exact update_self (UInt32.ofNat super.bmapstart) _ m.data
      have hsmall : b.toNat < BPB := hb.trans (by decide)
      rw [image_bit hb, hblock, Nat.mod_eq_of_lt hsmall]
      exact bit_usedBits hsmall
    · have hbit : (super.image m.mark.data).bit b = false := if_neg hb
      rw [hbit]
      exact (decide_eq_false fun hlt => hb (hlt.trans_le h.high)).symm
  · funext b
    show (if super.InData b then m.mark.data b else fun _ => 0) =
      if super.InData b then m.data b else fun _ => 0
    by_cases hb : super.InData b
    · have hne : b ≠ UInt32.ofNat super.bmapstart := by
        rintro rfl
        exact absurd hb.1 (by decide)
      rw [if_pos hb, if_pos hb]
      exact update_of_ne hne _ _
    · rw [if_neg hb, if_neg hb]

theorem balloc_eq (h : Laid m) : Mkfs.balloc m.freeblock.toNat m = .ok ((), m.mark) := by
  have hlt : m.freeblock.toNat < BPB := h.high.trans_lt (by decide)
  rw [Mkfs.balloc, ensure, if_pos hlt, bind_ok (pure_apply () m)]
  exact wsect_store h.sectors (by decide) _

/-! ## The root -/

/-- The size of the root after `fixRoot`. -/
def rounded (n : UInt32) : UInt32 := UInt32.ofNat ((n.toNat / BSIZE + 1) * BSIZE)

def Mk.fixed (m : Mk) : Mk :=
  m.put ROOTINO { m.ino ROOTINO with size := rounded (m.ino ROOTINO).size }

theorem fixRoot_eq (h : Laid m) : fixRoot ROOTINO m = .ok ((), m.fixed) := by
  have hroot : ROOTINO < NINODES := by decide
  rw [fixRoot, bind_ok (rinode_eq h hroot)]
  exact winode_eq h hroot _

theorem fixed_root : m.fixed.ino ROOTINO =
    { m.ino ROOTINO with size := rounded (m.ino ROOTINO).size } := by
  rw [Mk.fixed, put_ino (by decide), update_self]

theorem fixed_of_ne (hne : i ≠ ROOTINO) : m.fixed.ino i = m.ino i := by
  rw [Mk.fixed, put_ino (by decide), update_of_ne hne]

theorem fixed_blk : m.fixed.blk = m.blk := put_blk (by decide) _

theorem fixed_type (i : Nat) : (m.fixed.ino i).type = (m.ino i).type := by
  by_cases hi : i = ROOTINO
  · subst hi
    rw [fixed_root]
  · rw [fixed_of_ne hi]

theorem Stocked.size (h : Stocked m des) : (m.ino ROOTINO).size.toNat = 16 * des.length := by
  rw [h.root.size, dirBytes_length]

theorem Stocked.rounded (h : Stocked m des) (hn : des.length ≤ NINODES) :
    (rounded (m.ino ROOTINO).size).toNat = (16 * des.length / 1024 + 1) * 1024 := by
  have hsmall : des.length ≤ 200 := hn
  rw [Mkfs.rounded, h.size]
  refine UInt32.toNat_ofNat_of_lt' ?_
  show (16 * des.length / 1024 + 1) * 1024 < 4294967296
  omega

theorem Stocked.fixed (h : Stocked m des) (hn : des.length ≤ NINODES) (hmod : des.length % 64 ≠ 0) :
    Good m.fixed := by
  have hsmall : des.length ≤ 200 := hn
  refine Ahead.good (Ahead.resize (h.sane.good.ahead h.root.lt h.root.type) ?_ fun bn hbn => ?_)
  · have hmax : MAXFILE * BSIZE = 274432 := by decide
    rw [h.rounded hn, hmax]
    omega
  · rw [h.rounded hn] at hbn
    have hlow : bn * BSIZE < (dirBytes des).length := by
      rw [dirBytes_length]
      simp only [BSIZE] at *
      omega
    exact (h.root.holds.full bn (h.root.holds.bn_lt hlow)).2 hlow

theorem Stocked.ents (h : Stocked m des) (hn : des.length ≤ NINODES) (hmod : des.length % 64 ≠ 0) :
    ents m.fixed.blk (m.fixed.ino ROOTINO) = des.map toDirent ++
      replicate (64 * (des.length / 64 + 1) - des.length) ⟨0, []⟩ := by
  have hcount : (m.fixed.ino ROOTINO).size.toNat / 16 = 64 * (des.length / 64 + 1) := by
    rw [fixed_root]
    show (Mkfs.rounded (m.ino ROOTINO).size).toNat / 16 = _
    rw [h.rounded hn]
    omega
  have hdent : ∀ k, k < 64 * (des.length / 64 + 1) → dent m.fixed.blk (m.fixed.ino ROOTINO) k =
        if hlt : k < des.length then toDirent (des.get ⟨k, hlt⟩) else ⟨0, []⟩ := by
    intro k hk
    have hholds : Holds m.fixed.blk (m.fixed.ino ROOTINO) (dirBytes des) := by
      rw [fixed_blk, fixed_root]
      exact h.root.holds.resize _
    refine dent_dirBytes hholds (fun de hde => (h.names de hde).2.2) ?_
    omega
  refine ext_getElem? fun k => ?_
  rw [Fs.ents, hcount, getElem?_map, getElem?_append, length_map]
  rcases Nat.lt_or_ge k (64 * (des.length / 64 + 1)) with hk | hk
  · rw [getElem?_range hk]
    show some (dent _ _ k) = _
    rw [hdent k hk]
    by_cases hlt : k < des.length
    · rw [dif_pos hlt, if_pos hlt, getElem?_map, getElem?_eq_getElem hlt]
      rfl
    · rw [dif_neg hlt, if_neg hlt, getElem?_replicate, if_pos (by omega)]
  · rw [getElem?_eq_none (by rw [length_range]; exact hk), if_neg (by omega),
      getElem?_replicate, if_neg (by omega)]
    rfl

/-! ## The image -/

/-- An image that the kernel can trust, with the files `args`. -/
structure Trusted (m : Mk) (args : List Input) : Prop where
  sound : Sound super none (super.image m.data)
  full : ∀ i < NINODES, (m.ino i).type ≠ 0 → ∀ bn, bn * BSIZE < (m.ino i).size.toNat →
    slot m.blk (m.ino i) (dataSlot bn) ≠ 0
  inData : ∀ i < NINODES, (m.ino i).type ≠ 0 → ∀ t < SLOTS, slot m.blk (m.ino i) t ≠ 0 →
    nmeta ≤ (slot m.blk (m.ino i) t).toNat ∧ (slot m.blk (m.ino i) t).toNat < FSSIZE
  distinct : ∀ i < NINODES, (m.ino i).type ≠ 0 → ∀ i' < NINODES, (m.ino i').type ≠ 0 →
    ∀ t < SLOTS, ∀ t' < SLOTS, slot m.blk (m.ino i) t ≠ 0 →
      slot m.blk (m.ino i) t = slot m.blk (m.ino i') t' → i = i' ∧ t = t'
  bitmap : ∀ j < BPB, Block.bit (m.data (UInt32.ofNat super.bmapstart)) j =
    decide (j < m.freeblock.toNat)
  inSize : m.freeblock.toNat ≤ FSSIZE
  used : ∀ i < NINODES, (m.ino i).type ≠ 0 ↔ 1 ≤ i ∧ i < m.freeinode.toNat
  inums : ∀ i < m.freeinode.toNat, i < NINODES ∧ (super.iblock i).toNat < super.bmapstart
  rootType : (m.ino ROOTINO).type = T_DIR
  root : (ents m.blk (m.ino ROOTINO)).filter (fun de => de.inum ≠ 0) =
    (rootEntries ++ entriesFrom 2 args).map toDirent

theorem Good.sound_types (h : Good m) (hdir : ∀ i < NINODES, (m.ino i).type = T_DIR →
    ∀ de ∈ ents m.blk (m.ino i), de.inum.toNat < NINODES) :
    Sound super none (super.image m.mark.data) := by
  rw [mark_image h.toLaid]
  have hplace : m.marked.place super none = m.image.place super none := by
    funext pl
    rcases pl with _ | ⟨i, j⟩
    · rfl
    · exact place_congr (plain_type_eq_zero _).symm fun _ _ => rfl
  refine ⟨?_, by rintro b ⟨⟩, h.sound.reserved, fun i hi => ?_, fun i hi htype => ?_⟩
  · rw [hplace]
    exact h.sound.own
  · exact (plain_type_eq_zero _).1 (h.sound.beyond i hi)
  · have hfit := h.sound.fit i hi fun hzero => htype ((plain_type_eq_zero _).1 hzero)
    exact ⟨hfit.bound, hfit.full, hdir i hi⟩

theorem toDirent_inum {de : Nat × Name} (h : de.1 < NINODES) : (toDirent de).inum.toNat = de.1 := by
  have hsmall : de.1 < 200 := h
  refine UInt16.toNat_ofNat_of_lt' ?_
  exact hsmall.trans (by decide)

theorem Stocked.entries (h : Stocked m des) (hn : des.length ≤ NINODES)
    (hmod : des.length % 64 ≠ 0) :
    (∀ de ∈ Fs.ents m.fixed.blk (m.fixed.ino ROOTINO), de.inum.toNat < NINODES) ∧
      (Fs.ents m.fixed.blk (m.fixed.ino ROOTINO)).filter (fun de => de.inum ≠ 0) =
        des.map toDirent := by
  rw [h.ents hn hmod]
  constructor
  · intro de hde
    rcases mem_append.1 hde with hde | hde
    · obtain ⟨x, hx, rfl⟩ := mem_map.1 hde
      rw [toDirent_inum (h.names x hx).2.1]
      exact (h.names x hx).2.1
    · rw [eq_of_mem_replicate hde]
      decide
  · rw [filter_append, filter_eq_self.2, filter_eq_nil_iff.2, append_nil]
    · intro de hde
      rw [eq_of_mem_replicate hde]
      decide
    · intro de hde
      obtain ⟨x, hx, rfl⟩ := mem_map.1 hde
      refine decide_eq_true fun hzero => (h.names x hx).1 ?_
      rw [← toDirent_inum (h.names x hx).2.1, hzero]
      rfl

theorem Stocked.trusted (h : Stocked m (rootEntries ++ entriesFrom 2 args))
    (hn : args.length + 2 ≤ NINODES) (hmod : (args.length + 2) % 64 ≠ 0) :
    Trusted m.fixed.mark args := by
  have hlen : (rootEntries ++ entriesFrom 2 args).length = args.length + 2 := by
    rw [length_append, entriesFrom_length]
    exact Nat.add_comm _ _
  rw [← hlen] at hn hmod
  have hgood := h.fixed hn hmod
  have hentries := h.entries hn hmod
  have himage := mark_image hgood.toLaid
  have hino : m.fixed.mark.ino = m.fixed.ino := Eq.trans (congrArg Image.ino himage) rfl
  have hblk : m.fixed.mark.blk = m.fixed.blk := Eq.trans (congrArg Image.blk himage) rfl
  have hsound : Sound super none (super.image m.fixed.mark.data) := by
    refine hgood.sound_types fun i hi hdir => ?_
    by_cases hroot : i = ROOTINO
    · subst hroot
      exact hentries.1
    · rw [fixed_type] at hdir
      exact absurd hdir (h.only i hi hroot)
  refine ⟨hsound, fun i hi ht => (hsound.fit i hi ht).full, fun i hi ht t hlt hne => ?_,
    fun i hi ht i' hi' ht' t hlt t' hlt' hne heq => ?_, fun j hj => ?_, hgood.high, fun i hi => ?_,
    fun i hi => ?_, ?_, ?_⟩
  · exact (hsound.used_slot hi hlt ht hne).1
  · by_contra hdiff
    refine hsound.slot_ne_slot hi hlt ht hne hi' hlt' ht' (fun hpair => hdiff ?_) heq.symm
    exact ⟨congrArg Prod.fst hpair, congrArg Prod.snd hpair⟩
  · have hblock : m.fixed.mark.data (UInt32.ofNat super.bmapstart) =
        usedBits m.fixed.freeblock.toNat :=
      update_self (UInt32.ofNat super.bmapstart) _ m.fixed.data
    rw [hblock]
    exact bit_usedBits hj
  · rw [hino, fixed_type]
    exact h.sane.alloc i hi
  · have hlt : i < NINODES := Nat.lt_of_lt_of_le hi h.sane.last
    exact ⟨hlt, iblock_lt hlt⟩
  · rw [hino, fixed_type]
    exact h.dir
  · rw [hino, hblk]
    exact hentries.2

theorem main_spec (args : List Input) (hn : args.length + 2 ≤ NINODES)
    (hE : E ∨ (∀ a ∈ args, a.Empty) ∧ 47 + blocks (16 * (2 + args.length)) ≤ FSSIZE + blocks 32) :
    Ends E (main args) (fun _ m => ∃ m₀, Stocked m₀ (rootEntries ++ entriesFrom 2 args) ∧
      m = m₀.fixed.mark) (Mk.empty d) := by
  refine (start_spec d).seq ?_
  rintro r m ⟨rfl, hroot, hfree, hused⟩
  have hstock := stocked_start hroot hfree
  refine (addFiles_spec args hstock (Nat.le_refl 2) (by rw [Nat.add_comm]; exact hn) ?_).seq ?_
  · rw [hused]
    exact hE
  · rintro - m₀ hm₀
    have hlaid : Laid m₀.fixed :=
      hm₀.sane.good.toLaid.store (hm₀.sane.good.toLaid.iblock_lt (by decide)) _
    refine Ends.step (fixRoot_eq hm₀.sane.good.toLaid) ?_
    refine Ends.step (read_apply Mk.freeblock m₀.fixed) ?_
    exact Ends.of_eq (balloc_eq hlaid) ⟨m₀, hm₀, rfl⟩

/-- `mkfs fs.img f`, for an empty file. -/
def emptyFile : Input where
  path := [102]
  no_nul := by decide
  reads := some []

theorem emptyFile_empty {n : Nat} : ∀ a ∈ replicate n emptyFile, a.Empty := by
  intro a ha
  rw [eq_of_mem_replicate ha]
  exact ⟨by decide, by decide, rfl⟩

end Xv6Schedulers.Mkfs

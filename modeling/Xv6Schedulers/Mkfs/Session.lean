import Xv6Schedulers.Mkfs.Append

/-!
# Session — the states that `mkfs` goes through

* `Sane m`: the image is sound, the inodes below `freeinode` are files with known bytes, and the
  others are free.
* `Session m`: `m` is reached from an empty image by `start`, `ialloc` and `iappend`.
* `session_sane`: every such state is sane.
-/

namespace Xv6Schedulers.Mkfs

open Lib Log Fs Exec Function

variable {m m' m'' : Mk} {i i' : Nat} {E : Prop} {c p : List UInt8} {des : List (Nat × Name)}

/-! ## Files -/

theorem File.unchanged (h : File m i c) (hu : Unchanged m m' i) : File m' i c where
  lt := h.lt
  type := by
    rw [hu.1]
    exact h.type
  size := by
    rw [hu.1]
    exact h.size
  holds := hu.holds h.type h.holds

theorem Wrote.other (h : Wrote m m' i c p) {c' : List UInt8} (hne : i' ≠ i) (hf : File m i' c') :
    File m' i' c' :=
  hf.unchanged (h.keeps.2 i' hf.lt hne)

theorem Wrote.types (h : Wrote m m' i c p) (hi' : i' < NINODES) :
    (m'.ino i').type = (m.ino i').type := by
  by_cases hii : i' = i
  · subst hii
    exact h.type
  · rw [(h.keeps.2 i' hi' hii).1]

theorem File.nil (hi : i < NINODES) (htype : (m.ino i).type ≠ 0) (hsize : (m.ino i).size = 0)
    (haddrs : ∀ j, (m.ino i).addrs j = 0) : File m i [] where
  lt := hi
  type := htype
  size := by
    rw [hsize]
    rfl
  holds := by
    have hslot : ∀ t, slot m.blk (m.ino i) t = 0 := by
      intro t
      rcases Nat.lt_or_ge t 13 with ht | ht
      · rw [slot_direct ht, haddrs]
      · exact slot_of_no_root ht (haddrs 12)
    refine ⟨Nat.zero_le _, fun bn _ => ?_, ?_, fun x hx => absurd hx (Nat.not_lt_zero _)⟩
    · exact iff_of_false (not_not.2 (hslot _)) (Nat.not_lt_zero _)
    · exact iff_of_false (not_not.2 (haddrs 12)) (Nat.not_lt_zero _)

/-! ## `ialloc` -/

structure Sane (m : Mk) : Prop where
  good : Good m
  alloc : ∀ i < NINODES, (m.ino i).type ≠ 0 ↔ 1 ≤ i ∧ i < m.freeinode.toNat
  files : ∀ i < NINODES, (m.ino i).type ≠ 0 → ∃ c, File m i c
  first : 1 ≤ m.freeinode.toNat
  last : m.freeinode.toNat ≤ NINODES

/-- The inode that `ialloc` writes. -/
def Dinode.fresh (type : Int16) : Dinode := { Dinode.zero with type := type, nlink := 1 }

/-- `freeinode++`, with the inode written. -/
def Mk.ialloc (m : Mk) (type : Int16) : Mk :=
  Mk.put { m with freeinode := m.freeinode + 1 } m.freeinode.toNat (Dinode.fresh type)

theorem ialloc_eq (h : Laid m) (hi : m.freeinode.toNat < NINODES) (type : Int16) :
    Mkfs.ialloc type m = .ok (m.freeinode.toNat, m.ialloc type) := by
  have hlaid : Laid { m with freeinode := m.freeinode + 1 } := { h with }
  have hwrite := winode_eq hlaid hi (Dinode.fresh type)
  show (winode m.freeinode.toNat (Dinode.fresh type) >>= fun _ => pure m.freeinode.toNat)
    { m with freeinode := m.freeinode + 1 } = _
  rw [bind_ok hwrite]
  rfl

theorem ialloc_ino (hi : m.freeinode.toNat < NINODES) (type : Int16) :
    (m.ialloc type).ino = update m.ino m.freeinode.toNat (Dinode.fresh type) :=
  put_ino (m := { m with freeinode := m.freeinode + 1 }) hi _

theorem ialloc_unchanged (hi : m.freeinode.toNat < NINODES) (type : Int16)
    (hne : i ≠ m.freeinode.toNat) : Unchanged m (m.ialloc type) i := by
  refine ⟨?_, fun _ => ?_⟩
  · rw [ialloc_ino hi, update_of_ne hne]
  · have hblk : (m.ialloc type).blk = m.blk :=
      put_blk (m := { m with freeinode := m.freeinode + 1 }) hi _
    rw [hblk]
    exact ⟨fun _ _ => rfl, fun _ _ _ => rfl⟩

theorem freeinode_succ (hi : m.freeinode.toNat < NINODES) :
    (m.freeinode + 1).toNat = m.freeinode.toNat + 1 := by
  rw [UInt32.toNat_add]
  have hsmall : m.freeinode.toNat < 200 := hi
  show (m.freeinode.toNat + 1) % 2 ^ 32 = _
  omega

theorem Sane.file_ialloc (hi : m.freeinode.toNat < NINODES) {type : Int16} (htype : type ≠ 0) :
    File (m.ialloc type) m.freeinode.toNat [] := by
  have hself : (m.ialloc type).ino m.freeinode.toNat = Dinode.fresh type := by
    rw [ialloc_ino hi, update_self]
  refine File.nil hi ?_ ?_ fun j => ?_
  · rw [hself]
    exact htype
  · rw [hself]
    rfl
  · rw [hself]
    rfl

theorem Sane.ialloc (h : Sane m) (hi : m.freeinode.toNat < NINODES) {type : Int16}
    (htype : type ≠ 0) : Sane (m.ialloc type) := by
  have hfree : (m.ino m.freeinode.toNat).type = 0 :=
    not_not.1 fun hne => Nat.lt_irrefl _ ((h.alloc _ hi).1 hne).2
  have hsucc : (m.ialloc type).freeinode.toNat = m.freeinode.toNat + 1 := freeinode_succ hi
  refine ⟨⟨?_, ?_⟩, fun i hlt => ?_, fun i hlt hne => ?_, ?_, ?_⟩
  · have hlaid : Laid { m with freeinode := m.freeinode + 1 } := { h.good.toLaid with }
    exact hlaid.store (hlaid.iblock_lt hi) _
  · have himage : (m.ialloc type).image = m.work m.freeinode.toNat (Dinode.fresh type) :=
      put_image (m := { m with freeinode := m.freeinode + 1 }) hi _
    rw [himage]
    exact h.good.sound.fresh hi ((plain_type_eq_zero _).2 hfree) (fun _ => rfl) rfl
  · rw [hsucc]
    by_cases hif : i = m.freeinode.toNat
    · subst hif
      refine iff_of_true (Sane.file_ialloc hi htype).type ⟨h.first, Nat.lt_succ_self _⟩
    · rw [(ialloc_unchanged hi type hif).1, h.alloc i hlt]
      omega
  · by_cases hif : i = m.freeinode.toNat
    · subst hif
      exact ⟨[], Sane.file_ialloc hi htype⟩
    · have hu := ialloc_unchanged hi type hif
      rw [hu.1] at hne
      obtain ⟨c, hc⟩ := h.files i hlt hne
      exact ⟨c, hc.unchanged hu⟩
  · rw [hsucc]
    exact Nat.succ_pos _
  · rw [hsucc]
    exact hi

theorem Sane.wrote (h : Sane m) (hw : Wrote m m' i c p) : Sane m' := by
  refine ⟨hw.good, fun i' hlt => ?_, fun i' hlt hne => ?_, ?_, ?_⟩
  · rw [hw.keeps.1, hw.types hlt]
    exact h.alloc i' hlt
  · by_cases hii : i' = i
    · subst hii
      exact ⟨p, hw.file⟩
    · rw [(hw.keeps.2 i' hlt hii).1] at hne
      obtain ⟨c', hc'⟩ := h.files i' hlt hne
      exact ⟨c', hw.other hii hc'⟩
  · rw [hw.keeps.1]
    exact h.first
  · rw [hw.keeps.1]
    exact h.last

/-! ## `start` -/

theorem dinode_zero (k : Nat) : (Block.dinode (fun _ => 0) k).type = 0 := by
  show Int16.ofNat (Bytes.value (fun _ => 0) 2) = 0
  rw [Bytes.value_zero]
  rfl

/-- The image after the zeroed blocks and the superblock. -/
structure Blank (m : Mk) : Prop where
  sectors : m.sectors = FSSIZE
  freeblock : m.freeblock = UInt32.ofNat nmeta
  freeinode : m.freeinode = 1
  clean : ∀ b : BlockNo, 2 ≤ b.toNat → b.toNat < FSSIZE → m.data b = fun _ => 0

theorem Blank.laid (h : Blank m) : Laid m where
  sectors := h.sectors
  low := by
    rw [h.freeblock]
    decide
  high := by
    rw [h.freeblock]
    decide
  clean b hb hlt := by
    refine h.clean b ?_ hlt
    rw [h.freeblock] at hb
    exact (by decide : 2 ≤ (UInt32.ofNat nmeta).toNat).trans hb

theorem Blank.type (h : Blank m) (i : Nat) : (m.ino i).type = 0 := by
  rcases Nat.lt_or_ge i NINODES with hi | hi
  · have hino : m.ino i = super.dinode m.data i := image_ino (show i < super.ninodes from hi)
    have hlow : 2 ≤ (super.iblock i).toNat := by
      rw [super.toNat_iblock hi]
      exact (by decide : 2 ≤ super.inodestart).trans (Nat.le_add_left _ _)
    rw [hino, Super.dinode, h.clean _ hlow ((h.laid.iblock_lt hi).trans_le h.laid.high)]
    exact dinode_zero _
  · have hino : m.ino i = Dinode.zero := if_neg (Nat.not_lt.2 hi)
    rw [hino]
    rfl

theorem Blank.sane (h : Blank m) : Sane m := by
  have hplace : ∀ pl, m.image.place super none pl = none := by
    rintro (_ | ⟨i, j⟩)
    · rfl
    · exact if_neg fun hand => hand.2.2.1 ((plain_type_eq_zero _).2 (h.type i))
  have hunused : ∀ b, ¬ m.image.Used super b := by
    rintro b ⟨hdata, hbit⟩
    have hlt : b.toNat < m.freeblock.toNat := of_decide_eq_true hbit
    rw [h.freeblock] at hlt
    exact Nat.not_lt.2 hdata.1 hlt
  refine ⟨⟨h.laid, ?_⟩, fun i hi => ?_, fun i hi hne => absurd (h.type i) hne, ?_, ?_⟩
  · refine ⟨⟨fun {k b} hk => ?_, fun {k k' b} hk => ?_, fun {b} hb => absurd hb (hunused b)⟩,
      by rintro b ⟨⟩, fun b hb => ?_, fun i hi => ?_, fun i hi hne => ?_⟩
    · rw [hplace] at hk
      cases hk
    · rw [hplace] at hk
      cases hk
    · show decide (b.toNat < m.freeblock.toNat) = true
      rw [h.freeblock]
      exact decide_eq_true hb
    · exact (plain_type_eq_zero _).2 (h.type i)
    · exact absurd ((plain_type_eq_zero _).2 (h.type i)) hne
  · refine iff_of_false (not_not.2 (h.type i)) ?_
    rw [h.freeinode]
    rintro ⟨hle, hlt⟩
    exact Nat.not_lt.2 hle hlt
  · rw [h.freeinode]
    decide
  · rw [h.freeinode]
    decide

/-- The blocks below `n` are zeroed. -/
theorem zero_spec (d : Disk) {n : Nat} (hn : n ≤ FSSIZE) :
    Ends E (Exec.each (fun i => wsect (UInt32.ofNat i) fun _ => 0) n 0) (fun _ m => m.sectors = n ∧
      m.freeblock = UInt32.ofNat nmeta ∧ m.freeinode = 1 ∧
      ∀ b : BlockNo, b.toNat < n → m.data b = fun _ => 0) (Mk.empty d) := by
  refine Ends.each (fun j m => m.sectors = j ∧ m.freeblock = UInt32.ofNat nmeta ∧ m.freeinode = 1 ∧
    ∀ b : BlockNo, b.toNat < j → m.data b = fun _ => 0) ⟨rfl, rfl, rfl, fun b hb => ?_⟩ ?_ ?_
  · exact absurd hb (Nat.not_lt_zero _)
  · rintro j m - hj ⟨hsec, hblock, hino, hclean⟩
    have hnat : (UInt32.ofNat j).toNat = j := by
      refine UInt32.toNat_ofNat_of_lt' ?_
      have hsmall : n ≤ 2000 := hn
      have hlt : j < 2000 := by omega
      exact hlt.trans (by decide)
    refine Ends.modifies ⟨?_, hblock, hino, fun b hb => ?_⟩
    · rw [hsec, hnat]
      exact Nat.max_eq_right (Nat.le_succ j)
    · by_cases hbj : b = UInt32.ofNat j
      · rw [hbj]
        exact update_self _ _ _
      · refine (update_of_ne hbj _ _).trans (hclean b ?_)
        have hne : b.toNat ≠ j := by
          intro heq
          exact hbj (UInt32.toNat_inj.1 (heq.trans hnat.symm))
        omega
  · intro m hm
    rw [Nat.zero_add] at hm
    exact hm

@[simp] theorem direntBytes_length (inum : Nat) (name : Name) :
    (direntBytes inum name).length = 16 := by
  rw [direntBytes, List.length_map, List.length_range]

/-- The entries of a directory as bytes. -/
def dirBytes (des : List (Nat × Name)) : List UInt8 := des.flatMap fun de => direntBytes de.1 de.2

theorem dirBytes_length (des : List (Nat × Name)) : (dirBytes des).length = 16 * des.length := by
  induction des with
  | nil => rfl
  | cons de des ih =>
    rw [dirBytes, List.flatMap_cons, List.length_append, direntBytes_length]
    change 16 + (dirBytes des).length = _
    rw [ih, List.length_cons]
    omega

/-- The entries of the root before any file is added. -/
def rootEntries : List (Nat × Name) := [(ROOTINO, dot), (ROOTINO, dotdot)]

/-- The image with the root directory: `des` are its entries so far. -/
structure Rooted (m : Mk) (des : List (Nat × Name)) : Prop where
  sane : Sane m
  root : File m ROOTINO (dirBytes des)
  dir : (m.ino ROOTINO).type = T_DIR
  only : ∀ i < NINODES, i ≠ ROOTINO → (m.ino i).type ≠ T_DIR

theorem Rooted.append (h : Rooted m des) {de : Nat × Name}
    (hw : Wrote m m' ROOTINO (dirBytes des) (dirBytes des ++ direntBytes de.1 de.2)) :
    Rooted m' (des ++ [de]) where
  sane := h.sane.wrote hw
  root := by
    have hbytes : dirBytes (des ++ [de]) = dirBytes des ++ direntBytes de.1 de.2 := by
      rw [dirBytes, List.flatMap_append, List.flatMap_singleton]
      rfl
    rw [hbytes]
    exact hw.file
  dir := hw.type.trans h.dir
  only i hi hne := by
    rw [hw.types hi]
    exact h.only i hi hne

/-- `start` leaves a root directory with two entries. -/
theorem start_spec (d : Disk) : Ends E start (fun r m => r = ROOTINO ∧ Rooted m rootEntries ∧
    m.freeinode.toNat = 2 ∧ m.freeblock.toNat = nmeta + 1) (Mk.empty d) := by
  refine (zero_spec d (Nat.le_refl FSSIZE)).seq ?_
  rintro - m ⟨hsec, hblock, hino, hclean⟩
  refine Ends.step (wsect_store hsec (by decide) superBlock) ?_
  have hblank : Blank (m.store 1 superBlock) := by
    refine ⟨hsec, hblock, hino, fun b hb hlt => ?_⟩
    have hne : b ≠ 1 := by
      rintro rfl
      exact absurd hb (by decide)
    exact (update_of_ne hne _ _).trans (hclean b hlt)
  have hone : (m.store 1 superBlock).freeinode.toNat = ROOTINO := congrArg UInt32.toNat hino
  have hlt : (m.store 1 superBlock).freeinode.toNat < NINODES := by
    rw [hone]
    decide
  refine Ends.step (ialloc_eq hblank.laid hlt T_DIR) ?_
  have hsane := hblank.sane.ialloc hlt (by decide : T_DIR ≠ 0)
  have hfile : File ((m.store 1 superBlock).ialloc T_DIR) ROOTINO [] := by
    rw [← hone]
    exact Sane.file_ialloc hlt (by decide)
  have hroot : Rooted ((m.store 1 superBlock).ialloc T_DIR) [] := by
    refine ⟨hsane, hfile, ?_, fun i _ hne => ?_⟩
    · rw [ialloc_ino hlt, hone, update_self]
      rfl
    · rw [ialloc_ino hlt, hone, update_of_ne hne, hblank.type]
      decide
  have hfree : ((m.store 1 superBlock).ialloc T_DIR).freeinode.toNat = 2 :=
    (freeinode_succ hlt).trans (congrArg (· + 1) hone)
  have hused : ((m.store 1 superBlock).ialloc T_DIR).freeblock.toNat = 46 :=
    congrArg UInt32.toNat hblock
  generalize (m.store 1 superBlock).ialloc T_DIR = m₁ at hroot hfree hused
  rw [hone, ensure, if_pos rfl]
  refine Ends.step (pure_apply () m₁) ?_
  refine (iappend_spec hroot.sane.good hroot.root fun hover => ?_).seq ?_
  · rw [Overflows, hused, dirBytes_length, direntBytes_length] at hover
    exact absurd hover (by decide)
  rintro - m₂ hw₁
  have hroot₂ : Rooted m₂ ([] ++ [(ROOTINO, dot)]) := hroot.append hw₁
  have hused₂ : m₂.freeblock.toNat = 47 := by
    have hcount := hw₁.count
    rw [hused] at hcount
    exact hcount
  refine (iappend_spec hroot₂.sane.good hroot₂.root fun hover => ?_).seq ?_
  · rw [Overflows, hused₂, dirBytes_length, direntBytes_length] at hover
    exact absurd hover (by decide)
  rintro - m₃ hw₂
  have hroot₃ : Rooted m₃ ([] ++ [(ROOTINO, dot)] ++ [(ROOTINO, dotdot)]) := hroot₂.append hw₂
  refine Ends.ret ⟨rfl, hroot₃, ?_, ?_⟩
  · rw [hw₂.keeps.1, hw₁.keeps.1]
    exact hfree
  · have hcount := hw₂.count
    rw [hused₂] at hcount
    exact Nat.add_right_cancel hcount

/-! ## Sessions -/

/-- The states that `start`, `ialloc` and `iappend` reach, with inodes that the disk has. -/
inductive Session : Mk → Prop
  | start {d : Disk} {r : Nat} {m : Mk} (h : Mkfs.start (Mk.empty d) = .ok (r, m)) : Session m
  | alloc {m m' : Mk} {type : Int16} {i : Nat} (hm : Session m) (htype : type ≠ 0)
      (hi : m.freeinode.toNat < NINODES) (h : Mkfs.ialloc type m = .ok (i, m')) : Session m'
  | append {m m' : Mk} {i : Nat} {p : List UInt8} (hm : Session m) (hpos : 1 ≤ i)
      (hi : i < m.freeinode.toNat) (h : iappend i p m = .ok ((), m')) : Session m'

theorem Sane.file (h : Sane m) (hpos : 1 ≤ i) (hi : i < m.freeinode.toNat) : ∃ c, File m i c := by
  have hlt := hi.trans_le h.last
  exact h.files i hlt ((h.alloc i hlt).2 ⟨hpos, hi⟩)

theorem session_sane (h : Session m) : Sane m := by
  induction h with
  | start h => exact ((start_spec (E := True) _).of_ok h).2.1.sane
  | alloc hm htype hi h ih =>
    rw [ialloc_eq ih.good.toLaid hi] at h
    cases h
    exact ih.ialloc hi htype
  | append hm hpos hi h ih =>
    obtain ⟨c, hc⟩ := ih.file hpos hi
    exact ih.wrote ((iappend_spec (E := True) ih.good hc fun _ => trivial).of_ok h)

end Xv6Schedulers.Mkfs

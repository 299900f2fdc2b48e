import Xv6Schedulers.Fs.Sound
import Xv6Schedulers.Mkfs.Model

/-!
# Files — what the blocks of the image hold while `mkfs` runs

* `Mk.image`: the image with every block below `freeblock` in use, as the bitmap will say in the end.
  Only whether an inode is allocated counts, not its type.
* `Ahead m i din`: the image is sound when inode `i` is replaced by the copy `din`.
* `Holds blk d c`: the file `d` has as many blocks as the bytes `c` need, and they hold `c` and zeroes
  behind it.
* `Keeps m m' i`: the other inodes have the same blocks with the same contents.
-/

namespace Xv6Schedulers.Mkfs

open Lib Log Fs Function

variable {m m' m'' : Mk} {i i' : Nat} {din : Dinode} {b : BlockNo}

/-! ## Images -/

/-- An inode of which only matters whether it is allocated. -/
def plain (d : Dinode) : Dinode := { d with type := if d.type = 0 then 0 else T_FILE }

@[simp] theorem plain_type_eq_zero (d : Dinode) : (plain d).type = 0 ↔ d.type = 0 := by
  unfold plain
  by_cases h : d.type = 0
  · simp [h]
  · simp only [h, if_false, iff_false]
    decide

theorem plain_not_dir (d : Dinode) : (plain d).type ≠ T_DIR := by
  unfold plain
  by_cases h : d.type = 0
  · simp only [h, if_true]
    decide
  · simp only [h, if_false]
    decide

def Mk.ino (m : Mk) (i : Nat) : Dinode := (super.image m.data).ino i

def Mk.blk (m : Mk) : BlockNo → Block := (super.image m.data).blk

def Mk.image (m : Mk) : Image where
  ino i := plain (m.ino i)
  bit b := decide (b.toNat < m.freeblock.toNat)
  blk := m.blk

/-- The image with the copy `din` of inode `i`. -/
def Mk.work (m : Mk) (i : Nat) (din : Dinode) : Image := m.image.setIno i (plain din)

/-- The blocks from `freeblock` on are there and zero. -/
structure Laid (m : Mk) : Prop where
  sectors : m.sectors = FSSIZE
  low : nmeta ≤ m.freeblock.toNat
  high : m.freeblock.toNat ≤ FSSIZE
  clean : ∀ b : BlockNo, m.freeblock.toNat ≤ b.toNat → b.toNat < FSSIZE → m.data b = fun _ => 0

structure Ahead (m : Mk) (i : Nat) (din : Dinode) : Prop extends Laid m where
  lt : i < NINODES
  type : din.type ≠ 0
  sound : Sound super none (m.work i din)

theorem inData_iff : super.InData b ↔ nmeta ≤ b.toNat ∧ b.toNat < FSSIZE := Iff.rfl

theorem Laid.inData (h : Laid m) (hlt : m.freeblock.toNat < FSSIZE) : super.InData m.freeblock :=
  inData_iff.2 ⟨h.low, hlt⟩

theorem Laid.blk_zero (h : Laid m) (hlt : m.freeblock.toNat < FSSIZE) :
    m.blk m.freeblock = fun _ => 0 := by
  rw [Mk.blk, image_blk (h.inData hlt)]
  exact h.clean _ (Nat.le_refl _) hlt

theorem toNat_succ (hlt : b.toNat < FSSIZE) : (b + 1).toNat = b.toNat + 1 := by
  rw [UInt32.toNat_add]
  have hsmall : b.toNat < 2000 := hlt
  show (b.toNat + 1) % 2 ^ 32 = _
  omega

/-- `freeblock++` -/
def Mk.take (m : Mk) : Mk := { m with freeblock := m.freeblock + 1 }

theorem Laid.take (h : Laid m) (hlt : m.freeblock.toNat < FSSIZE) : Laid m.take where
  sectors := h.sectors
  low := by
    show nmeta ≤ (m.freeblock + 1).toNat
    rw [toNat_succ hlt]
    exact h.low.trans (Nat.le_succ _)
  high := by
    show (m.freeblock + 1).toNat ≤ FSSIZE
    rw [toNat_succ hlt]
    exact hlt
  clean b hb hb' := by
    have hle : (m.freeblock + 1).toNat ≤ b.toNat := hb
    rw [toNat_succ hlt] at hle
    exact h.clean b (Nat.le_of_succ_le hle) hb'

theorem work_take (h : Laid m) (hlt : m.freeblock.toNat < FSSIZE) (i : Nat) (din : Dinode) :
    m.take.work i din = ((m.work i din).setBit m.freeblock true).setBlk m.freeblock fun _ => 0 := by
  refine Image.ext rfl ?_ ?_
  · funext c
    show decide (c.toNat < (m.freeblock + 1).toNat) =
      update (fun c : BlockNo => decide (c.toNat < m.freeblock.toNat)) m.freeblock true c
    rw [toNat_succ hlt]
    by_cases hc : c = m.freeblock
    · subst hc
      simp
    · rw [update_of_ne hc]
      have hne : c.toNat ≠ m.freeblock.toNat := fun heq => hc (UInt32.toNat_inj.1 heq)
      exact decide_eq_decide.2 (by omega)
  · show m.blk = update m.blk m.freeblock fun _ => 0
    rw [← h.blk_zero hlt, update_eq_self]

theorem Ahead.alloc (h : Ahead m i din) (hlt : m.freeblock.toNat < FSSIZE) :
    Sound super (some m.freeblock) (m.take.work i din) := by
  have hfree : (m.work i din).bit m.freeblock = false := by
    show decide (m.freeblock.toNat < m.freeblock.toNat) = false
    simp
  rw [work_take h.toLaid hlt]
  exact (h.sound.alloc (h.toLaid.inData hlt) hfree).1

theorem work_self (m : Mk) (i : Nat) (din : Dinode) : (m.work i din).ino i = plain din :=
  update_self _ _ _

theorem work_of_ne (m : Mk) (din : Dinode) (hne : i' ≠ i) :
    (m.work i din).ino i' = plain (m.ino i') :=
  update_of_ne hne _ _

theorem Ahead.work_type (h : Ahead m i din) : ((m.work i din).ino i).type ≠ 0 := by
  rw [work_self, ne_eq, plain_type_eq_zero]
  exact h.type

theorem Ahead.putAddr (h : Ahead m i din) (hlt : m.freeblock.toNat < FSSIZE) {j : Fin 13}
    (hzero : din.addrs j = 0) : Ahead m.take i (din.setAddr j m.freeblock) where
  toLaid := h.toLaid.take hlt
  lt := h.lt
  type := h.type
  sound := by
    have hself : (m.take.work i din).ino i = plain din := work_self m.take i din
    have hput := (h.alloc hlt).putAddr h.lt h.work_type (j := j) (by rw [hself]; exact hzero)
    rw [hself] at hput
    have heq : (m.take.work i din).setIno i ((plain din).setAddr j m.freeblock) =
        m.take.work i (din.setAddr j m.freeblock) := by
      refine Image.ext ?_ rfl rfl
      exact update_idem _ _ _
    rw [heq] at hput
    exact hput.1

/-- Store a block of the data area. -/
def Mk.store (m : Mk) (b : BlockNo) (v : Block) : Mk := { m with data := update m.data b v }

theorem wsect_store (h : m.sectors = FSSIZE) (hb : b.toNat < FSSIZE) (v : Block) :
    wsect b v m = .ok ((), m.store b v) := by
  have hmax : max m.sectors (b.toNat + 1) = m.sectors := by
    rw [h]
    exact Nat.max_eq_left hb
  simp only [wsect, Exec.modify_apply, hmax, Mk.store]

theorem blk_store (hb : super.InData b) (v : Block) : (m.store b v).blk = update m.blk b v :=
  Eq.trans (congrArg Image.blk (image_setData (d := m.data) hb v)) rfl

theorem ino_store (hb : super.InData b) (v : Block) : (m.store b v).ino = m.ino :=
  Eq.trans (congrArg Image.ino (image_setData (d := m.data) hb v)) rfl

theorem work_store (hb : super.InData b) (v : Block) (i : Nat) (din : Dinode) :
    (m.store b v).work i din = (m.work i din).setBlk b v := by
  refine Image.ext ?_ rfl (blk_store hb v)
  show update (fun i => plain ((m.store b v).ino i)) i _ = _
  rw [ino_store hb v]
  rfl

theorem Laid.store (h : Laid m) (hb : b.toNat < m.freeblock.toNat) (v : Block) :
    Laid (m.store b v) where
  sectors := h.sectors
  low := h.low
  high := h.high
  clean c hc hc' := by
    have hne : c ≠ b := by
      rintro rfl
      exact Nat.not_lt.2 hc hb
    show update m.data b v c = _
    rw [update_of_ne hne]
    exact h.clean c hc hc'

/-! ## Contents -/

/-- Byte `x` of a file. -/
def fileByte (blk : BlockNo → Block) (d : Dinode) (x : Nat) : UInt8 :=
  Bytes.byte (blk (slot blk d (dataSlot (x / BSIZE)))) (x % BSIZE)

/-- The file `d` has the blocks that the bytes `c` need; they hold `c` and then zeroes. -/
structure Holds (blk : BlockNo → Block) (d : Dinode) (c : List UInt8) : Prop where
  bound : c.length ≤ MAXFILE * BSIZE
  full : ∀ bn < MAXFILE, slot blk d (dataSlot bn) ≠ 0 ↔ bn * BSIZE < c.length
  root : d.addrs 12 ≠ 0 ↔ NDIRECT * BSIZE < c.length
  bytes : ∀ x, x / BSIZE * BSIZE < c.length → fileByte blk d x = c.getD x 0

/-- Inode `i'` has the same blocks, with the same contents. -/
def Unchanged (m m' : Mk) (i : Nat) : Prop :=
  m'.ino i = m.ino i ∧ ((m.ino i).type ≠ 0 →
    (∀ t < SLOTS, slot m'.blk (m.ino i) t = slot m.blk (m.ino i) t) ∧
    ∀ t < SLOTS, slot m.blk (m.ino i) t ≠ 0 →
      m'.blk (slot m.blk (m.ino i) t) = m.blk (slot m.blk (m.ino i) t))

/-- The inodes other than `i` are unchanged. -/
def Keeps (m m' : Mk) (i : Nat) : Prop :=
  m'.freeinode = m.freeinode ∧ ∀ i' < NINODES, i' ≠ i → Unchanged m m' i'

theorem Unchanged.trans (h₁ : Unchanged m m' i) (h₂ : Unchanged m' m'' i) : Unchanged m m'' i := by
  refine ⟨h₂.1.trans h₁.1, fun htype => ?_⟩
  have hs₁ := h₁.2 htype
  have hs₂ := h₂.2 (by rw [h₁.1]; exact htype)
  rw [h₁.1] at hs₂
  refine ⟨fun t ht => (hs₂.1 t ht).trans (hs₁.1 t ht), fun t ht hne => ?_⟩
  have hslot := hs₁.1 t ht
  have hblk := hs₂.2 t ht (by rw [hslot]; exact hne)
  rw [hslot] at hblk
  exact hblk.trans (hs₁.2 t ht hne)

theorem Keeps.refl (m : Mk) (i : Nat) : Keeps m m i :=
  ⟨rfl, fun _ _ _ => ⟨rfl, fun _ => ⟨fun _ _ => rfl, fun _ _ _ => rfl⟩⟩⟩

theorem Keeps.trans (h₁ : Keeps m m' i) (h₂ : Keeps m' m'' i) : Keeps m m'' i :=
  ⟨h₂.1.trans h₁.1, fun i' hi' hne => (h₁.2 i' hi' hne).trans (h₂.2 i' hi' hne)⟩

theorem Holds.bn_lt {blk : BlockNo → Block} {d : Dinode} {c : List UInt8} (h : Holds blk d c)
    {bn : Nat} (hbn : bn * BSIZE < c.length) : bn < MAXFILE := by
  have hbound := h.bound
  simp only [MAXFILE, NDIRECT, NINDIRECT, BSIZE] at *
  omega

theorem Holds.congr {blk blk' : BlockNo → Block} {d d' : Dinode} {c : List UInt8}
    (h : Holds blk d c) (hslot : ∀ t < SLOTS, slot blk' d' t = slot blk d t)
    (hblk : ∀ bn < MAXFILE, slot blk d (dataSlot bn) ≠ 0 →
      blk' (slot blk d (dataSlot bn)) = blk (slot blk d (dataSlot bn))) : Holds blk' d' c := by
  refine ⟨h.bound, fun bn hbn => ?_, ?_, fun x hx => ?_⟩
  · rw [hslot _ (dataSlot_lt hbn)]
    exact h.full bn hbn
  · have hroot : d'.addrs 12 = d.addrs 12 := hslot 12 (by decide)
    rw [hroot]
    exact h.root
  · have hlt := h.bn_lt hx
    rw [fileByte, hslot _ (dataSlot_lt hlt), hblk _ hlt ((h.full _ hlt).2 hx)]
    exact h.bytes x hx

theorem Holds.resize {blk : BlockNo → Block} {d : Dinode} {c : List UInt8} (h : Holds blk d c)
    (n : UInt32) : Holds blk { d with size := n } c :=
  h.congr (fun _ _ => rfl) fun _ _ _ => rfl

theorem Unchanged.holds (h : Unchanged m m' i) (htype : (m.ino i).type ≠ 0) {c : List UInt8}
    (hc : Holds m.blk (m.ino i) c) : Holds m'.blk (m'.ino i) c := by
  rw [h.1]
  exact hc.congr (h.2 htype).1 fun bn hbn hne => (h.2 htype).2 _ (dataSlot_lt hbn) hne

end Xv6Schedulers.Mkfs

import Xv6Schedulers.Mkfs.Session

/-!
# Directory — the arguments of `mkfs` become files of the root directory

* `Stocked m des`: the root has the entries `des`, and every inode that is taken is named by one.
* `addFiles_spec`: each argument adds a file and an entry.
* `dent_dirBytes`: what the kernel decodes from the bytes of the directory.
-/

namespace Xv6Schedulers.Mkfs

open Lib Log Fs Exec List

variable {m m' : Mk} {i : Nat} {E : Prop} {c : List UInt8} {des : List (Nat × Name)}

/-- The root has the entries `des`; the next inode is free. -/
structure Stocked (m : Mk) (des : List (Nat × Name)) : Prop extends Rooted m des where
  names : ∀ de ∈ des, de.1 ≠ 0 ∧ de.1 < NINODES ∧ de.2.Fits
  next : m.freeinode.toNat = des.length

theorem stocked_start (h : Rooted m rootEntries) (hfree : m.freeinode.toNat = 2) :
    Stocked m rootEntries where
  toRooted := h
  names := by
    intro de hde
    rcases mem_cons.1 hde with rfl | hde
    · exact ⟨by decide, by decide, by decide, by decide⟩
    · rw [mem_singleton.1 hde]
      exact ⟨by decide, by decide, by decide, by decide⟩
  next := hfree

/-! ## `addFile` -/

/-- The argument is refused, or there are too few blocks for it. -/
def Refused (m : Mk) (des : List (Nat × Name)) (a : Input) : Prop :=
  47 ∈ a.basename ∨ DIRSIZ < a.shortname.length ∨ a.reads = none ∨
    ∃ ps, a.reads = some ps ∧ (MAXFILE * BSIZE < ps.flatten.length ∨
      FSSIZE + blocks (16 * des.length) <
        m.freeblock.toNat + blocks (16 * (des.length + 1)) + blocks ps.flatten.length)

theorem shortname_no_nul (a : Input) : 0 ∉ a.shortname := by
  have hbase : 0 ∉ a.basename := by
    unfold Input.basename
    split
    · exact fun hmem => a.no_nul (mem_of_mem_drop hmem)
    · exact a.no_nul
  unfold Input.shortname
  split
  · exact fun hmem => hbase (mem_of_mem_drop hmem)
  · exact hbase

theorem Rooted.ialloc (h : Rooted m des) (hi : m.freeinode.toNat < NINODES) {type : Int16}
    (htype : type ≠ 0) (hfile : type ≠ T_DIR) : Rooted (m.ialloc type) des := by
  have hne : ROOTINO ≠ m.freeinode.toNat := by
    intro heq
    have hroot := (h.sane.alloc ROOTINO h.root.lt).1 h.root.type
    rw [← heq] at hroot
    exact Nat.lt_irrefl _ hroot.2
  have hu := ialloc_unchanged hi type hne
  refine ⟨h.sane.ialloc hi htype, h.root.unchanged hu, ?_, fun i hlt hroot => ?_⟩
  · rw [hu.1]
    exact h.dir
  · by_cases hif : i = m.freeinode.toNat
    · rw [ialloc_ino hi, hif, Function.update_self]
      exact hfile
    · rw [(ialloc_unchanged hi type hif).1]
      exact h.only i hlt hroot

theorem Rooted.wrote (h : Rooted m des) {p : List UInt8} (hne : i ≠ ROOTINO)
    (hw : Wrote m m' i c p) : Rooted m' des where
  sane := h.sane.wrote hw
  root := hw.other (Ne.symm hne) h.root
  dir := by
    rw [hw.types h.root.lt]
    exact h.dir
  only i hi hi' := by
    rw [hw.types hi]
    exact h.only i hi hi'

/-- An argument becomes a file with an entry in the root. -/
theorem addFile_spec (h : Stocked m des) (hn : des.length < NINODES) (hpos : 2 ≤ des.length)
    (a : Input) (hE : Refused m des a → E) :
    Ends E (addFile ROOTINO a) (fun _ m' => Stocked m' (des ++ [(des.length, a.shortname)]) ∧
      ∀ ps, a.reads = some ps → m'.freeblock.toNat + blocks (16 * des.length) =
        m.freeblock.toNat + blocks (16 * (des.length + 1)) + blocks ps.flatten.length) m := by
  unfold addFile
  by_cases hslash : 47 ∈ a.basename
  · rw [ensure, if_neg (not_not.2 hslash)]
    exact Ends.stop (throw_apply _ m) (hE (Or.inl hslash))
  rw [ensure, if_pos hslash]
  refine Ends.step (pure_apply () m) ?_
  cases hreads : a.reads with
  | none => exact Ends.throws (hE (Or.inr (Or.inr (Or.inl hreads))))
  | some ps =>
    by_cases hlong : a.shortname.length ≤ DIRSIZ
    · rw [ensure, if_pos hlong]
      refine Ends.step (pure_apply () m) ?_
      have hi : m.freeinode.toNat < NINODES := by
        rw [h.next]
        exact hn
      have hne : des.length ≠ ROOTINO := Nat.ne_of_gt hpos
      have hover : (MAXFILE * BSIZE < ps.flatten.length ∨ FSSIZE + blocks (16 * des.length) <
          m.freeblock.toNat + blocks (16 * (des.length + 1)) + blocks ps.flatten.length) → E :=
        fun hfew => hE (Or.inr (Or.inr (Or.inr ⟨ps, hreads, hfew⟩)))
      have hmul : 16 * des.length + 16 = 16 * (des.length + 1) := rfl
      refine Ends.step (ialloc_eq h.sane.good.toLaid hi T_FILE) ?_
      rw [h.next]
      have hroot : Rooted (m.ialloc T_FILE) des := h.toRooted.ialloc hi (by decide) (by decide)
      have hfile : File (m.ialloc T_FILE) des.length [] := by
        rw [← h.next]
        exact Sane.file_ialloc hi (by decide)
      have hnext : (m.ialloc T_FILE).freeinode.toNat = des.length + 1 := by
        rw [← h.next]
        exact freeinode_succ hi
      have hused : (m.ialloc T_FILE).freeblock = m.freeblock := rfl
      generalize m.ialloc T_FILE = m₁ at hroot hfile hnext hused
      refine (iappend_spec hroot.sane.good hroot.root fun hfew => ?_).seq ?_
      · refine hover (Or.inr ?_)
        rw [Overflows, dirBytes_length, direntBytes_length, hused, hmul] at hfew
        have hsmall : des.length < 200 := hn
        have hmax : MAXFILE * BSIZE = 274432 := by decide
        omega
      rintro - m₂ hw
      have hroot₂ : Rooted m₂ (des ++ [(des.length, a.shortname)]) := hroot.append hw
      have hfile₂ := hw.other hne hfile
      have hcount := hw.count
      rw [length_append, dirBytes_length, direntBytes_length, hused, hmul] at hcount
      have hzero : blocks ([] : List UInt8).length = 0 := by decide
      refine (copyFile_spec ps hroot₂.sane.good hfile₂ fun hfew => ?_).mono ?_
      · refine hover ?_
        rw [Overflows, hzero, length_nil, Nat.zero_add] at hfew
        refine hfew.imp id fun hlt => ?_
        omega
      rintro - m₃ hw₃
      refine ⟨⟨hroot₂.wrote hne hw₃, fun de hde => ?_, ?_⟩, ?_⟩
      · rcases mem_append.1 hde with hold | hnew
        · exact h.names de hold
        · rw [mem_singleton.1 hnew]
          exact ⟨by omega, hn, hlong, shortname_no_nul a⟩
      · rw [hw₃.keeps.1, hw.keeps.1, hnext, length_append]
        rfl
      · rintro _ ⟨⟩
        have hcount₃ := hw₃.count
        rw [hzero, nil_append] at hcount₃
        omega
    · rw [ensure, if_neg hlong]
      exact Ends.stop (throw_apply _ m) (hE (Or.inr (Or.inl (Nat.lt_of_not_le hlong))))

/-! ## `addFiles` -/

/-- The entries of the arguments, from inode `k` on. -/
def entriesFrom : Nat → List Input → List (Nat × Name)
  | _, [] => []
  | k, a :: as => (k, a.shortname) :: entriesFrom (k + 1) as

theorem entriesFrom_length (k : Nat) (as : List Input) : (entriesFrom k as).length = as.length := by
  induction as generalizing k with
  | nil => rfl
  | cons a as ih => rw [entriesFrom, length_cons, ih, length_cons]

/-- An argument that is never refused: a good name and no bytes. -/
def Input.Empty (a : Input) : Prop :=
  47 ∉ a.basename ∧ a.shortname.length ≤ DIRSIZ ∧ a.reads = some []

/-- The arguments become files, unless one is refused; empty ones are refused only when the blocks for
the root run out. -/
theorem addFiles_spec (as : List Input) (h : Stocked m des) (hpos : 2 ≤ des.length)
    (hn : des.length + as.length ≤ NINODES)
    (hE : E ∨ (∀ a ∈ as, a.Empty) ∧ m.freeblock.toNat + blocks (16 * (des.length + as.length)) ≤
      FSSIZE + blocks (16 * des.length)) :
    Ends E (addFiles ROOTINO as)
      (fun _ m' => Stocked m' (des ++ entriesFrom des.length as)) m := by
  induction as generalizing m des with
  | nil =>
    rw [entriesFrom, append_nil]
    exact Ends.ret h
  | cons a as ih =>
    rw [length_cons] at hn hE
    have hone : blocks (16 * (des.length + 1)) ≤ blocks (16 * (des.length + (as.length + 1))) :=
      blocks_mono (by omega)
    have hzero : blocks ([] : List (List UInt8)).flatten.length = 0 := by decide
    refine (addFile_spec h (by omega) hpos a fun hno => ?_).seq ?_
    · rcases hE with hE | ⟨hempty, hroom⟩
      · exact hE
      · obtain ⟨hslash, hlong, hreads⟩ := hempty a mem_cons_self
        rcases hno with hbad | hbad | hbad | ⟨ps, hps, hbad⟩
        · exact absurd hbad hslash
        · exact absurd hlong (Nat.not_le.2 hbad)
        · rw [hreads] at hbad
          cases hbad
        · rw [hreads] at hps
          cases hps
          rw [hzero] at hbad
          rcases hbad with hbad | hbad
          · exact absurd hbad (Nat.not_lt_zero _)
          · omega
    · rintro - m' ⟨hstock, hcount⟩
      have hlen : (des ++ [(des.length, a.shortname)]).length = des.length + 1 := by
        rw [length_append]
        rfl
      have hgo := ih hstock (by omega) (by omega) (hE.imp id fun hand => ⟨fun b hb =>
        hand.1 b (mem_cons_of_mem _ hb), ?_⟩)
      · rw [hlen, append_assoc] at hgo
        exact hgo
      · have hcount := hcount [] (hand.1 a mem_cons_self).2.2
        have hroom := hand.2
        rw [hzero] at hcount
        rw [hlen, show des.length + 1 + as.length = des.length + (as.length + 1) by omega]
        omega

/-! ## The bytes of a directory -/

theorem dirBytes_getD {k j : Nat} (hk : k < des.length) (hj : j < 16) :
    (dirBytes des).getD (16 * k + j) 0 =
      Dirent.encode ⟨UInt16.ofNat (des.get ⟨k, hk⟩).1, (des.get ⟨k, hk⟩).2⟩ j := by
  -- by induction on the entries; the first sixteen bytes are those of the first entry
  induction des generalizing k with
  | nil => exact absurd hk (Nat.not_lt_zero _)
  | cons de des ih =>
    have hcons : dirBytes (de :: des) = direntBytes de.1 de.2 ++ dirBytes des := rfl
    rw [hcons]
    cases k with
    | zero =>
      have hin : j < (direntBytes de.1 de.2).length := by
        rw [direntBytes_length]
        exact hj
      rw [Nat.mul_zero, Nat.zero_add, getD_append _ _ _ _ hin, getD_eq_getElem _ _ hin]
      simp only [direntBytes, getElem_map, getElem_range]
      rfl
    | succ k =>
      have hle : (direntBytes de.1 de.2).length ≤ 16 * (k + 1) + j := by
        rw [direntBytes_length]
        omega
      rw [getD_append_right _ _ _ _ hle, direntBytes_length,
        show 16 * (k + 1) + j - 16 = 16 * k + j by omega]
      exact ih (Nat.lt_of_succ_lt_succ hk)

/-- An entry as the kernel has it. -/
def toDirent (de : Nat × Name) : Dirent := ⟨UInt16.ofNat de.1, de.2⟩

theorem dent_of_holds {blk : BlockNo → Block} {d : Dinode} (h : Holds blk d c) {k : Nat}
    (hk : k / 64 * 1024 < c.length) :
    dent blk d k = Dirent.decode fun j => c.getD (16 * k + j) 0 := by
  refine Dirent.decode_congr fun j hj => ?_
  have hdiv : (16 * k + j) / BSIZE = k / 64 := by
    simp only [BSIZE]
    omega
  have hmod : (16 * k + j) % BSIZE = 16 * (k % 64) + j := by
    simp only [BSIZE]
    omega
  have hbyte := h.bytes (16 * k + j) (by rw [hdiv]; exact hk)
  rw [fileByte, hdiv, hmod] at hbyte
  exact hbyte

theorem dent_dirBytes {blk : BlockNo → Block} {d : Dinode} (h : Holds blk d (dirBytes des))
    (hfit : ∀ de ∈ des, de.2.Fits) {k : Nat} (hk : k / 64 * 1024 < 16 * des.length) :
    dent blk d k = if hlt : k < des.length then toDirent (des.get ⟨k, hlt⟩) else ⟨0, []⟩ := by
  rw [dent_of_holds h (by rw [dirBytes_length]; exact hk)]
  split
  · rename_i hlt
    refine (Dirent.decode_congr fun j hj => dirBytes_getD hlt hj).trans ?_
    exact Dirent.decode_encode _ (hfit _ (get_mem des ⟨k, hlt⟩))
  · rename_i hge
    have hzero : Dirent.decode (fun j => (dirBytes des).getD (16 * k + j) 0) =
        Dirent.decode fun _ => 0 := by
      refine Dirent.decode_congr fun j _ => getD_eq_default _ _ ?_
      rw [dirBytes_length]
      omega
    rw [hzero]
    decide

end Xv6Schedulers.Mkfs

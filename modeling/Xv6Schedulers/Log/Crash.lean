import Xv6Schedulers.Log.Commit

/-!
# Crash — a transaction survives as a whole or not at all

The machine may stop between any two writes of `commit`, and again between any two writes of each
`recover_from_log` after that.  Seen from outside the log area, a disk is then in one of three
phases, and no write leads back:

* `Clean d`: the header is empty and the home blocks are those of `d`, before the transaction;
* `Committed`: the header lists the transaction, the log holds it, and each of its home blocks is
  either old or new;
* `Clean` again, now with the new home blocks.

`Life` are the memories of a mounted file system, from `mkfs` on through any number of calls,
commits, crashes and reboots.
-/

namespace Xv6Schedulers.Log

open Lib Function List

/-- The disks that a crash during `run` can leave, in the order in which they occur. -/
def crashDisks (run : Mem → Mem) (m : Mem) : List Disk :=
  m.disk :: (run m).written.drop m.written.length

/-- From disk `d`, any number of recoveries that crash, and then one that completes. -/
inductive Reboots (start : BlockNo) : Disk → Mem → Prop
  | completed (victim : Nat → BlockNo) (d : Disk) :
      Reboots start d (recoverFromLog victim start (.cold d))
  | crashed (victim : Nat → BlockNo) {d e : Disk} {m : Mem}
      (hcrash : e ∈ crashDisks (recoverFromLog victim start) (.cold d)) (h : Reboots start e m) :
      Reboots start d m

/-- What file-system calls do to buffers and `log.lh` between two commits. -/
inductive Call (start : BlockNo) (size : Nat) (m : Mem) : Mem → Prop
  | bread (victim : Nat → BlockNo) (b : BlockNo) : Call start size m (m.bread victim b)
  | modify {b : BlockNo} (v : Block) (hout : ¬ InLog start size b) :
      Call start size m (m.setData b v)
  | bpin (b : BlockNo) : Call start size m { m with refcnt := update m.refcnt b (m.refcnt b + 1) }
  | unref (b : BlockNo) : Call start size m (m.unref b)
  | logWrite (lh : List BlockNo) : Call start size m { m with lh := lh }

/-- A mounted file system. -/
inductive Life (start : BlockNo) (size : Nat) : Mem → Prop
  /-- `mkfs` writes an empty log. -/
  | boot {d : Disk} {m : Mem} (hmkfs : (d start).header = []) (h : Reboots start d m) :
      Life start size m
  | call {m m' : Mem} (h : Life start size m) (hcall : Call start size m m') : Life start size m'
  | commit (victim : Nat → BlockNo) {m : Mem} (h : Life start size m)
      (ht : Transaction start size m) : Life start size (commit victim start m)
  | crash (victim : Nat → BlockNo) {m m' : Mem} {e : Disk} (h : Life start size m)
      (ht : Transaction start size m) (hcrash : e ∈ crashDisks (commit victim start) m)
      (hboot : Reboots start e m') : Life start size m'

/-! ## The phases of a disk -/

/-- The log is empty, and outside it the disk is `d`. -/
structure Clean (start : BlockNo) (size : Nat) (d e : Disk) : Prop where
  header : (e start).header = []
  home : ∀ x, ¬ InLog start size x → e x = d x

/-- The log holds the blocks `lh` of `new`; of their home blocks some are written. -/
structure Committed (start : BlockNo) (size : Nat) (d new : Disk) (lh : List BlockNo) (e : Disk) :
    Prop where
  header : (e start).header = lh
  log : ∀ j (hj : j < lh.length), e (logBlock start j) = new lh[j]
  old : ∀ x, ¬ InLog start size x → x ∉ lh → e x = d x

/-- The disk `d` with the blocks `lh` of `new`. -/
def install (d new : Disk) (lh : List BlockNo) : Disk := fun x =>
  if x ∈ lh then new x else d x

section Phases

variable {victim : Nat → BlockNo} {start : BlockNo} {size : Nat} {d new e : Disk}
  {lh : List BlockNo} {m : Mem} {ws : List (BlockNo × Block)}

theorem Issues.crashDisks_eq {run : Mem → Mem} (h : Issues m (run m) ws) :
    crashDisks run m = m.disk :: Writes.trail ws m.disk := by
  rw [crashDisks, h.written, drop_left]

theorem fits_nil (hsize : 0 < size) : Fits start size [] :=
  ⟨Nat.zero_le _, hsize, fun _ hb => by cases hb⟩

theorem header_clear (b : Block) : (b.setHeader []).header = [] :=
  header_setHeader b (Nat.zero_le _)

theorem Clean.clear (hsize : 0 < size) (h : ∀ x, ¬ InLog start size x → e x = d x) (b : Block) :
    Clean start size d (update e start (b.setHeader [])) := by
  refine ⟨by rw [update_self, header_clear], fun x hx => ?_⟩
  have hne : x ≠ start := by
    rintro rfl
    exact hx (start_inLog hsize)
  rw [update_of_ne hne, h x hx]

theorem recover_clean (hsize : 0 < size) (h : Clean start size d e) :
    (∀ e' ∈ crashDisks (recoverFromLog victim start) (.cold e), Clean start size d e') ∧
      Clean start size d (recoverFromLog victim start (.cold e)).disk := by
  have hfits : Fits start size (e start).header := by
    rw [h.header]
    exact fits_nil hsize
  have hissues := recover_issues victim e hfits
  rw [h.header] at hissues
  have hdone := Clean.clear hsize h.home (e start)
  refine ⟨?_, ?_⟩
  · intro e' he'
    rw [hissues.crashDisks_eq] at he'
    rcases mem_cons.1 he' with rfl | he'
    · exact h
    · rcases mem_singleton.1 he' with rfl
      exact hdone
  · rw [hissues.disk]
    exact hdone

theorem Committed.copy (hfits : Fits start size lh) (h : Committed start size d new lh e) (j : Nat) :
    Committed start size d new lh (Writes.apply ((lh.take j).map fun b => (b, new b)) e) := by
  have hkeep : ∀ x, x ∉ lh → Writes.apply ((lh.take j).map fun b => (b, new b)) e x = e x := by
    intro x hx
    rw [Writes.apply_map, if_neg fun hmem => hx (mem_of_mem_take hmem)]
  refine ⟨?_, ?_, ?_⟩
  · rw [hkeep start hfits.start_notMem, h.header]
  · intro i hi
    have hin : InLog start size (logBlock start i) := logBlock_inLog (by have := hfits.area; omega)
    rw [hkeep _ fun hmem => hfits.outside _ hmem hin, h.log i hi]
  · intro x hx hmem
    rw [hkeep x hmem, h.old x hx hmem]

theorem Committed.installed (h : Committed start size d new lh e) : ∀ x, ¬ InLog start size x →
      Writes.apply (lh.map fun b => (b, new b)) e x = install d new lh x := by
  intro x hx
  rw [Writes.apply_map, install]
  split
  · rfl
  · exact h.old x hx (by assumption)

theorem recover_committed (hfits : Fits start size lh) (h : Committed start size d new lh e) :
    (∀ e' ∈ crashDisks (recoverFromLog victim start) (.cold e),
      Committed start size d new lh e' ∨ Clean start size (install d new lh) e') ∧
      Clean start size (install d new lh) (recoverFromLog victim start (.cold e)).disk := by
  have hsize : 0 < size := Nat.zero_lt_of_lt hfits.area
  have hissues := recover_issues victim e (by rw [h.header]; exact hfits)
  rw [h.header, installWrites_eq_map fun j hj => by rw [Nat.zero_add, h.log j hj]] at hissues
  have hdone := Clean.clear hsize h.installed (e start)
  refine ⟨?_, ?_⟩
  · intro e' he'
    rw [hissues.crashDisks_eq] at he'
    rcases getElem?_of_mem he' with ⟨j, hj⟩
    rcases (Writes.getElem?_trail _ _ _ j).1 hj with ⟨hlen, rfl⟩
    rw [length_append, length_map] at hlen
    by_cases hle : j ≤ lh.length
    · refine .inl ?_
      rw [take_append_of_le_length (by simpa using hle), ← map_take]
      exact h.copy hfits j
    · refine .inr ?_
      rw [take_of_length_le (by simp at hlen ⊢; omega), Writes.apply_append]
      exact hdone
  · rw [hissues.disk, Writes.apply_append]
    exact hdone

theorem recover_data (e : Disk) (hfits : Fits start size (e start).header) :
    (recoverFromLog victim start (.cold e)).data = (recoverFromLog victim start (.cold e)).disk := by
  have hissues := recover_issues victim e hfits
  funext x
  rw [hissues.data x fun _ => congrFun Mem.cold_data x, hissues.disk, Mem.cold_data]
  rfl

theorem reboots_clean (hsize : 0 < size) (h : Clean start size d e) (hboot : Reboots start e m) :
    Clean start size d m.disk ∧ m.data = m.disk := by
  induction hboot with
  | completed victim e =>
    exact ⟨(recover_clean hsize h).2, recover_data e (by rw [h.header]; exact fits_nil hsize)⟩
  | crashed victim hcrash _ ih => exact ih ((recover_clean hsize h).1 _ hcrash)

theorem reboots_committed (hfits : Fits start size lh) (h : Committed start size d new lh e)
    (hboot : Reboots start e m) :
    Clean start size (install d new lh) m.disk ∧ m.data = m.disk := by
  have hsize : 0 < size := Nat.zero_lt_of_lt hfits.area
  induction hboot with
  | completed victim e =>
    exact ⟨(recover_committed hfits h).2, recover_data e (by rw [h.header]; exact hfits)⟩
  | crashed victim hcrash hboot ih =>
    rcases (recover_committed hfits h).1 _ hcrash with h' | h'
    · exact ih h'
    · exact reboots_clean hsize h' hboot

/-! ## The phases of a commit -/

/-- The log's buffers agree with the disk, and its header is empty. -/
structure Mounted (start : BlockNo) (size : Nat) (m : Mem) : Prop where
  header : (m.disk start).header = []
  log : ∀ x, InLog start size x → m.data x = m.disk x

theorem apply_logWrites_of_notMem {data : BlockNo → Block} (hfits : Fits start size lh) {x : BlockNo}
    (hx : x = start ∨ ¬ InLog start size x) (j : Nat) :
    Writes.apply ((logWrites start data 0 lh).take j) d x = d x := by
  refine Writes.apply_of_notMem _ fun hmem => ?_
  rw [map_take] at hmem
  rcases mem_logWrites (mem_of_mem_take hmem) with ⟨i, -, hi, rfl⟩
  rw [Nat.zero_add] at hi
  rcases hx with hx | hx
  · exact logBlock_ne_start (lt_of_lt_of_le hi hfits.logsize) hx
  · exact hx (logBlock_inLog (by have := hfits.area; omega))

/-- The disk when the header has reached it. -/
theorem committed_header {data : BlockNo → Block} (hfits : Fits start size lh) (b : Block) :
    Committed start size d data lh
      (update (Writes.apply (logWrites start data 0 lh) d) start (b.setHeader lh)) := by
  have htake := take_of_length_le (l := logWrites start data 0 lh) (Nat.le_refl _)
  refine ⟨?_, ?_, ?_⟩
  · rw [update_self, header_setHeader b hfits.logsize]
  · intro j hj
    rw [update_of_ne (logBlock_ne_start (lt_of_lt_of_le hj hfits.logsize))]
    have hlog : Writes.apply (logWrites start data 0 lh) d (logBlock start (0 + j)) = data lh[j] :=
      apply_logWrites d (by simpa using hfits.logsize) hj
    rwa [Nat.zero_add] at hlog
  · intro x hx _
    have hne : x ≠ start := by
      rintro rfl
      exact hx (start_inLog (Nat.zero_lt_of_lt hfits.area))
    have hkeep : Writes.apply ((logWrites start data 0 lh).take (logWrites start data 0 lh).length)
        d x = d x := apply_logWrites_of_notMem hfits (.inr hx) _
    rw [htake] at hkeep
    rw [update_of_ne hne, hkeep]

/-- The disk after the first `j` writes of `commit`. -/
theorem commit_crash (hm : Mounted start size m) (ht : Transaction start size m)
    (hpos : 0 < m.lh.length) {j : Nat} (h : (crashDisks (commit victim start) m)[j]? = some e) :
    (j ≤ m.lh.length ∧ Clean start size m.disk e) ∨
      (m.lh.length < j ∧ Committed start size m.disk m.data m.lh e) ∨
      (m.lh.length + 1 < j ∧ Clean start size (install m.disk m.data m.lh) e) := by
  have hfits := ht.fits
  have hissues := commit_issues victim ht (fun x hx _ => hm.log x hx) hpos
  rw [hissues.crashDisks_eq] at h
  rcases (Writes.getElem?_trail _ _ _ j).1 h with ⟨hlen, rfl⟩
  have hlog : (logWrites start m.data 0 m.lh).length = m.lh.length := length_logWrites m.data m.lh 0
  have hhead : Committed start size m.disk m.data m.lh _ := committed_header hfits (m.data start)
  rw [commitWrites] at hlen ⊢
  by_cases hle : j ≤ m.lh.length
  · -- still copying to the log
    refine .inl ⟨hle, ?_, ?_⟩
    · rw [take_append_of_le_length (by omega), apply_logWrites_of_notMem hfits (.inl rfl),
        hm.header]
    · intro x hx
      rw [take_append_of_le_length (by omega), apply_logWrites_of_notMem hfits (.inr hx)]
  · rcases Nat.exists_eq_add_of_lt (Nat.lt_of_not_le hle) with ⟨i, rfl⟩
    have hsplit : m.lh.length + i + 1 - (logWrites start m.data 0 m.lh).length = i + 1 := by omega
    rw [take_append, take_of_length_le (by omega), hsplit, take_succ_cons,
      Writes.apply_append, Writes.apply]
    by_cases hi : i ≤ m.lh.length
    · -- the header is on disk, and `i` blocks are copied home
      refine .inr (.inl ⟨by omega, ?_⟩)
      rw [take_append_of_le_length (by simpa using hi), ← map_take]
      exact hhead.copy hfits i
    · -- the header is cleared
      refine .inr (.inr ⟨by omega, ?_⟩)
      rw [take_of_length_le (by simp at hlen ⊢; omega), Writes.apply_append]
      exact Clean.clear (Nat.zero_lt_of_lt hfits.area) hhead.installed _

end Phases

/-! ## The life of a file system -/

section Life

variable {victim : Nat → BlockNo} {start : BlockNo} {size : Nat} {m m' : Mem} {e : Disk}

theorem Mounted.call (h : Mounted start size m) (hcall : Call start size m m') :
    Mounted start size m' := by
  cases hcall with
  | bread victim b =>
    refine ⟨by rw [Mem.bread_disk, h.header], fun x hx => ?_⟩
    rw [Mem.bread_data fun _ => h.log x hx, Mem.bread_disk, h.log x hx]
  | @modify b v hout =>
    refine ⟨h.header, fun x hx => ?_⟩
    have hne : x ≠ b := by
      rintro rfl
      exact hout hx
    rw [Mem.setData_data, update_of_ne hne, h.log x hx]
    rfl
  | bpin b => exact ⟨h.header, h.log⟩
  | unref b => exact ⟨h.header, h.log⟩
  | logWrite lh => exact ⟨h.header, h.log⟩

theorem Mounted.commit (h : Mounted start size m) (ht : Transaction start size m) :
    Mounted start size (commit victim start m) := by
  by_cases hpos : 0 < m.lh.length
  · have hissues := commit_issues victim ht (fun x hx _ => h.log x hx) hpos
    refine ⟨?_, fun x hx => ?_⟩
    · rw [hissues.disk, commitWrites, Writes.apply_append, Writes.apply, Writes.apply_append,
        Writes.apply, Writes.apply, update_self, header_clear]
    · rw [hissues.data x fun _ => h.log x hx, hissues.disk]
      exact Writes.apply_congr (h.log x hx)
  · rw [Log.commit, if_neg hpos]
    exact h

theorem crashDisks_of_empty (hpos : ¬ 0 < m.lh.length) :
    crashDisks (commit victim start) m = [m.disk] := by
  rw [crashDisks, commit, if_neg hpos, drop_length]

theorem Mounted.crash (h : Mounted start size m) (ht : Transaction start size m)
    (hcrash : e ∈ crashDisks (Log.commit victim start) m) (hboot : Reboots start e m') :
    Mounted start size m' := by
  have hsize : 0 < size := Nat.zero_lt_of_lt ht.fits.area
  have hdone : ∀ d, Clean start size d m'.disk ∧ m'.data = m'.disk → Mounted start size m' :=
    fun d hd => ⟨hd.1.header, fun x _ => congrFun hd.2 x⟩
  by_cases hpos : 0 < m.lh.length
  · rcases getElem?_of_mem hcrash with ⟨j, hj⟩
    rcases commit_crash h ht hpos hj with ⟨-, hc⟩ | ⟨-, hc⟩ | ⟨-, hc⟩
    · exact hdone _ (reboots_clean hsize hc hboot)
    · exact hdone _ (reboots_committed ht.fits hc hboot)
    · exact hdone _ (reboots_clean hsize hc hboot)
  · rw [crashDisks_of_empty hpos, mem_singleton] at hcrash
    subst hcrash
    exact hdone _ (reboots_clean hsize ⟨h.header, fun _ _ => rfl⟩ hboot)

theorem life_mounted (hsize : 0 < size) (h : Life start size m) : Mounted start size m := by
  induction h with
  | boot hmkfs hboot =>
    rcases reboots_clean hsize ⟨hmkfs, fun _ _ => rfl⟩ hboot with ⟨hc, hdata⟩
    exact ⟨hc.header, fun x _ => congrFun hdata x⟩
  | call _ hcall ih => exact ih.call hcall
  | commit victim _ ht ih => exact ih.commit ht
  | crash victim _ ht hcrash hboot ih => exact ih.crash ht hcrash hboot

/-- A header with `n > 0` is on one of the disks. -/
def HeaderReached (start : BlockNo) (ds : List Disk) : Prop := ∃ g ∈ ds, 0 < (g start).headerN

theorem headerN_eq_length (b : Block) : b.headerN = b.header.length := by
  simp [Block.header]

theorem headerReached_iff (h : Mounted start size m) (ht : Transaction start size m)
    (hpos : 0 < m.lh.length) {k : Nat} (hk : k < (crashDisks (commit victim start) m).length) :
    HeaderReached start ((crashDisks (commit victim start) m).take (k + 1)) ↔ m.lh.length < k := by
  constructor
  · rintro ⟨g, hg, hn⟩
    rw [headerN_eq_length] at hn
    rcases getElem?_of_mem hg with ⟨j, hj⟩
    have hjk : j < k + 1 := by
      have hlt := (List.getElem?_eq_some_iff.1 hj).1
      exact lt_of_lt_of_le hlt (length_take_le _ _)
    rw [getElem?_take_of_lt hjk] at hj
    rcases commit_crash h ht hpos hj with ⟨-, hc⟩ | ⟨hlt, -⟩ | ⟨hlt, -⟩
    · simp [hc.header] at hn
    · omega
    · omega
  · intro hlt
    have hn : m.lh.length + 1 < (crashDisks (commit victim start) m).length := by omega
    have hget : (crashDisks (commit victim start) m)[m.lh.length + 1]?
        = some (crashDisks (commit victim start) m)[m.lh.length + 1] := getElem?_eq_getElem hn
    refine ⟨(crashDisks (commit victim start) m)[m.lh.length + 1],
      mem_of_getElem? (i := m.lh.length + 1) ?_, ?_⟩
    · rw [getElem?_take_of_lt (by omega), hget]
    · rw [headerN_eq_length]
      rcases commit_crash h ht hpos hget with ⟨hle, -⟩ | ⟨-, hc⟩ | ⟨hlt', -⟩
      · omega
      · rw [hc.header]
        exact hpos
      · omega

/-- However often the machine crashes, during the commit and during the recoveries after it, the
recovery that completes leaves the whole transaction if its header had reached the disk, and
otherwise nothing of it; and it leaves an empty log. -/
theorem commit_crash_atomic (hlife : Life start size m) (ht : Transaction start size m)
    (victim : Nat → BlockNo) {k : Nat} (hcrash : (crashDisks (commit victim start) m)[k]? = some e)
    (hboot : Reboots start e m') :
    (HeaderReached start ((crashDisks (commit victim start) m).take (k + 1)) →
      ∀ x, ¬ InLog start size x → m'.disk x = if x ∈ m.lh then m.data x else m.disk x) ∧
    (¬ HeaderReached start ((crashDisks (commit victim start) m).take (k + 1)) →
      ∀ x, ¬ InLog start size x → m'.disk x = m.disk x) ∧
    (m'.disk start).headerN = 0 := by
  have hsize : 0 < size := Nat.zero_lt_of_lt ht.fits.area
  have hm := life_mounted hsize hlife
  have hm' := hm.crash ht (mem_of_getElem? hcrash) hboot
  have hzero : (m'.disk start).headerN = 0 := by
    rw [headerN_eq_length, hm'.header, length_nil]
  by_cases hpos : 0 < m.lh.length
  · have hk : k < (crashDisks (commit victim start) m).length :=
      (List.getElem?_eq_some_iff.1 hcrash).1
    rw [headerReached_iff hm ht hpos hk]
    refine ⟨fun hlt => ?_, fun hle => ?_, hzero⟩
    · rcases commit_crash hm ht hpos hcrash with ⟨hle, -⟩ | ⟨-, hc⟩ | ⟨-, hc⟩
      · omega
      · exact (reboots_committed ht.fits hc hboot).1.home
      · exact (reboots_clean hsize hc hboot).1.home
    · rcases commit_crash hm ht hpos hcrash with ⟨-, hc⟩ | ⟨hlt, -⟩ | ⟨hlt, -⟩
      · exact (reboots_clean hsize hc hboot).1.home
      · omega
      · omega
  · -- nothing to commit: the disk is as before on every path
    have hnil : m.lh = [] := eq_nil_of_length_eq_zero (by omega)
    rw [crashDisks_of_empty hpos] at hcrash
    have he : e = m.disk := by
      rcases List.getElem?_eq_some_iff.1 hcrash with ⟨hk, rfl⟩
      simp
    have hhome := (reboots_clean hsize ⟨by rw [he, hm.header], fun _ _ => rfl⟩ hboot).1.home
    rw [he] at hhome
    refine ⟨fun _ x hx => ?_, fun _ x hx => hhome x hx, hzero⟩
    rw [hhome x hx, hnil]
    simp

end Life

/-- A file system booted from an empty disk. -/
def booted : Mem := recoverFromLog (fun _ => 0) 2 (.cold fun _ _ => 0)

/-- It has modified and pinned one block, and logged it. -/
def oneBlock : Mem :=
  let m := booted.setData 40 fun _ => 7
  let m := { m with refcnt := update m.refcnt 40 (m.refcnt 40 + 1) }
  { m with lh := [40] }

theorem oneBlock_life : Life 2 30 oneBlock := by
  have hboot : Life 2 30 booted := .boot rfl (.completed (fun _ => 0) fun _ _ => 0)
  have hmodify := hboot.call (.modify (b := 40) (fun _ => 7) (by decide))
  exact (hmodify.call (.bpin 40)).call (.logWrite [40])

theorem oneBlock_transaction : Transaction 2 30 oneBlock := by
  refine ⟨⟨by decide, by decide, ?_⟩, ?_⟩
  · intro b hb
    rcases mem_singleton.1 hb with rfl
    decide
  · intro b hb
    rcases mem_singleton.1 hb with rfl
    simp [oneBlock]

/-- A crash right after the header has reached the disk: the recovery installs the block. -/
theorem commit_crash_atomic_oneBlock :
    ∃ (e : Disk) (m' : Mem), Life 2 30 oneBlock ∧ Transaction 2 30 oneBlock ∧
      (crashDisks (commit (fun _ => 0) 2) oneBlock)[2]? = some e ∧ Reboots 2 e m' ∧
      m'.disk 40 = oneBlock.data 40 := by
  have hm := life_mounted (by decide) oneBlock_life
  have ht := oneBlock_transaction
  have hpos : 0 < oneBlock.lh.length := by decide
  have hissues := commit_issues (fun _ => 0) ht (fun x hx _ => hm.log x hx) hpos
  have hcrash : (crashDisks (commit (fun _ => 0) 2) oneBlock)[2]?
      = some (Writes.apply ((commitWrites 2 oneBlock).take 2) oneBlock.disk) := by
    rw [hissues.crashDisks_eq, Writes.getElem?_trail]
    refine ⟨?_, rfl⟩
    simp [commitWrites, length_logWrites, oneBlock]
  have hboot : Reboots 2 _ _ := .completed (fun _ => 0)
    (Writes.apply ((commitWrites 2 oneBlock).take 2) oneBlock.disk)
  have hatomic := commit_crash_atomic oneBlock_life ht (fun _ => 0) hcrash hboot
  have hreach := (headerReached_iff hm ht hpos (List.getElem?_eq_some_iff.1 hcrash).1).2 (by decide)
  exact ⟨_, _, oneBlock_life, ht, hcrash, hboot, hatomic.1 hreach 40 (by decide)⟩

end Xv6Schedulers.Log

import Mathlib.Data.UInt
import Xv6Schedulers.Lib.Bytes
import Xv6Schedulers.Lib.Writes

/-!
# Commit — the redo log on disk

`log.c` from `install_trans` to `commit`, over the disk and the buffer cache of `bio.c`.

* `Mem` is the disk, the valid buffers with their reference counts, and `log.lh`; a buffer without
  references may be recycled whenever another block is read, in any order (`victim`).
* `commit` and `recoverFromLog` are the source's functions; `Mem.written` records the disk after
  each `bwrite`, so that a crash leaves one of these disks.
* `Issues m m' ws`: the code between `m` and `m'` makes exactly the disk writes `ws`.
  `commit_issues` and `recover_issues` give the writes of the two functions.
-/

namespace Xv6Schedulers.Log

open Lib Function List

/-! ## Blocks and the header -/

def BSIZE : Nat := 1024
def MAXOPBLOCKS : Nat := 10
def LOGSIZE : Nat := MAXOPBLOCKS * 3

instance : NeZero BSIZE := ⟨by decide⟩

/-- `uchar data[BSIZE]`. -/
abbrev Block := Bytes BSIZE

abbrev BlockNo := UInt32

/-- A statement about every block number is not decided by trying them all. -/
noncomputable instance (priority := high) decidableForallBlock (p : BlockNo → Prop) : Decidable (∀ b, p b) :=
  Classical.propDecidable _

abbrev Disk := BlockNo → Block

/-- The `int` at index `k` of a block read as an array of `int`. -/
def Block.word (b : Block) (k : Nat) : UInt32 := UInt32.ofNat (Bytes.get b (4 * k) 4)

def Block.setWord (b : Block) (k : Nat) (v : UInt32) : Block := Bytes.set b (4 * k) 4 v.toNat

/-- `lh->n`; a negative value ends the loops at once. -/
def Block.headerN (b : Block) : Nat := (b.word 0).toInt32.toInt.toNat

/-- `lh->block[0..n)`. -/
def Block.header (b : Block) : List BlockNo := (range b.headerN).map fun i => b.word (i + 1)

/-- `hb->block[i] = log.lh.block[i]` from index `i` on. -/
def Block.setEntries (b : Block) (i : Nat) : List BlockNo → Block
  | [] => b
  | e :: es => (b.setWord (i + 1) e).setEntries (i + 1) es

/-- `write_head`'s assignments: the entries from `n` on keep their old values. -/
def Block.setHeader (b : Block) (lh : List BlockNo) : Block :=
  (b.setWord 0 (UInt32.ofNat lh.length)).setEntries 0 lh

section Header

theorem word_setWord_self (b : Block) {k : Nat} (v : UInt32) (hk : k < 256) :
    (b.setWord k v).word k = v := by
  have hget : Bytes.get (b.setWord k v) (4 * k) 4 = v.toNat :=
    Bytes.get_set b (by simp only [BSIZE]; omega) v.toNat_lt
  simp [Block.word, hget]

theorem word_setWord_of_ne (b : Block) {k j : Nat} (v : UInt32) (hj : j < 256) (h : j ≠ k) :
    (b.setWord k v).word j = b.word j := by
  have hget : Bytes.get (b.setWord k v) (4 * j) 4 = Bytes.get b (4 * j) 4 :=
    Bytes.get_set_of_disjoint b (by simp only [BSIZE]; omega) (by omega)
  simp only [Block.word, hget]

theorem setEntries_cons (b : Block) (i : Nat) (e : BlockNo) (es : List BlockNo) :
    b.setEntries i (e :: es) = (b.setWord (i + 1) e).setEntries (i + 1) es := rfl

theorem word_setEntries_of_le (b : Block) (i : Nat) (es : List BlockNo) {j : Nat} (hj : j < 256)
    (h : j ≤ i) : (b.setEntries i es).word j = b.word j := by
  induction es generalizing b i with
  | nil => rfl
  | cons e es ih =>
    rw [setEntries_cons, ih _ _ (by omega), word_setWord_of_ne b e hj (by omega)]

theorem word_setEntries (b : Block) (i : Nat) (es : List BlockNo) (hlen : i + es.length < 256)
    {j : Nat} (hj : j < es.length) : (b.setEntries i es).word (i + j + 1) = es[j] := by
  induction es generalizing b i j with
  | nil => cases hj
  | cons e es ih =>
    rw [length_cons] at hlen hj
    rw [setEntries_cons]
    cases j with
    | zero =>
      rw [Nat.add_zero, word_setEntries_of_le _ _ _ (by omega) (Nat.le_refl _),
        word_setWord_self b e (by omega), getElem_cons_zero]
    | succ j =>
      have hindex : i + (j + 1) + 1 = i + 1 + j + 1 := by omega
      rw [hindex, ih _ _ (by omega) (by omega), getElem_cons_succ]

theorem header_setHeader (b : Block) {lh : List BlockNo} (hlen : lh.length ≤ LOGSIZE) :
    (b.setHeader lh).header = lh := by
  have hlen' : lh.length ≤ 30 := hlen
  have hn : (b.setHeader lh).headerN = lh.length := by
    have hword : (b.setHeader lh).word 0 = UInt32.ofNat lh.length := by
      rw [Block.setHeader, word_setEntries_of_le _ _ _ (by omega) (by omega),
        word_setWord_self _ _ (by omega)]
    have hint : ∀ n ≤ 30, (UInt32.ofNat n).toInt32.toInt.toNat = n := by decide
    rw [Block.headerN, hword, hint _ hlen']
  rw [Block.header, hn]
  refine ext_getElem (by simp) fun j h₁ h₂ => ?_
  rw [getElem_map, getElem_range]
  have hentry := word_setEntries (b.setWord 0 (UInt32.ofNat lh.length)) 0 lh (by omega) h₂
  rwa [Nat.zero_add] at hentry

end Header

/-! ## The buffer cache -/

/-- The disk, the buffer cache and `log.lh`. -/
structure Mem where
  disk : Disk
  /-- the contents of the valid buffers -/
  buf : BlockNo → Option Block
  refcnt : BlockNo → Nat
  /-- `log.lh.block[0..n)` -/
  lh : List BlockNo
  /-- how many blocks were read, to tell the choices of `victim` apart -/
  reads : Nat
  /-- the disk after each `bwrite` -/
  written : List Disk

namespace Mem

/-- `b->data`: what the buffer of a block holds, or would hold after `bread`. -/
def data (m : Mem) (b : BlockNo) : Block := (m.buf b).getD (m.disk b)

/-- The buffers after a reboot. -/
def cold (d : Disk) : Mem where
  disk := d
  buf := fun _ => none
  refcnt := fun _ => 0
  lh := []
  reads := 0
  written := []

/-- `bget` takes the buffer of an unused block. -/
def recycle (m : Mem) (v : BlockNo) : Mem :=
  if m.refcnt v = 0 then { m with buf := update m.buf v none } else m

/-- `bread`: the block that loses its buffer, if any, is named by `victim`. -/
def bread (victim : Nat → BlockNo) (m : Mem) (b : BlockNo) : Mem :=
  let m' :=
    match m.buf b with
    | some _ => m
    | none =>
        let m := m.recycle (victim m.reads)
        { m with buf := update m.buf b (some (m.disk b)) }
  { m' with refcnt := update m'.refcnt b (m'.refcnt b + 1), reads := m'.reads + 1 }

/-- `memmove(b->data, ..., BSIZE)`. -/
def setData (m : Mem) (b : BlockNo) (v : Block) : Mem := { m with buf := update m.buf b (some v) }

def bwrite (m : Mem) (b : BlockNo) : Mem :=
  let d := update m.disk b (m.data b)
  { m with disk := d, written := m.written ++ [d] }

/-- `b->refcnt--`, in `brelse` and `bunpin`. -/
def unref (m : Mem) (b : BlockNo) : Mem := { m with refcnt := update m.refcnt b (m.refcnt b - 1) }

/-- `log.lh.n = 0`. -/
def reset (m : Mem) : Mem := { m with lh := [] }

/-- A buffer that may be recycled holds what the disk holds. -/
def Settled (m : Mem) (b : BlockNo) : Prop := m.refcnt b = 0 → m.data b = m.disk b

section Buffers

variable {victim : Nat → BlockNo} {m : Mem} {b x : BlockNo} {v : Block} {d : Disk}

theorem cold_data : (cold d).data = d := rfl

@[simp] theorem recycle_disk : (m.recycle b).disk = m.disk := by
  unfold recycle
  split <;> rfl

@[simp] theorem recycle_refcnt : (m.recycle b).refcnt = m.refcnt := by
  unfold recycle
  split <;> rfl

@[simp] theorem recycle_lh : (m.recycle b).lh = m.lh := by
  unfold recycle
  split <;> rfl

@[simp] theorem recycle_written : (m.recycle b).written = m.written := by
  unfold recycle
  split <;> rfl

theorem recycle_data (h : m.Settled x) : (m.recycle b).data x = m.data x := by
  unfold recycle
  split
  · rename_i hzero
    by_cases hx : x = b
    · subst hx
      simpa [data] using (h hzero).symm
    · simp [data, hx]
  · rfl

@[simp] theorem bread_disk : (m.bread victim b).disk = m.disk := by
  unfold bread
  split <;> simp

@[simp] theorem bread_refcnt : (m.bread victim b).refcnt = update m.refcnt b (m.refcnt b + 1) := by
  unfold bread
  split <;> simp

@[simp] theorem bread_lh : (m.bread victim b).lh = m.lh := by
  unfold bread
  split <;> simp

@[simp] theorem bread_written : (m.bread victim b).written = m.written := by
  unfold bread
  split <;> simp

theorem bread_data (h : m.Settled x) : (m.bread victim b).data x = m.data x := by
  unfold bread
  split
  · rfl
  · rename_i hmiss
    by_cases hx : x = b
    · subst hx
      simp [data, hmiss]
    · have hkeep := recycle_data (b := victim m.reads) h
      simpa [data, hx] using hkeep

theorem bread_settled (h : m.Settled x) : (m.bread victim b).Settled x := by
  intro hzero
  rw [bread_data h, bread_disk]
  refine h ?_
  by_cases hx : x = b
  · simp [hx] at hzero
  · simpa [hx] using hzero

theorem setData_data : (m.setData b v).data = update m.data b v := by
  funext x
  by_cases hx : x = b
  · simp [setData, data, hx]
  · simp [setData, data, hx]

theorem bwrite_data : (m.bwrite b).data = m.data := by
  funext x
  by_cases hx : x = b
  · subst hx
    cases hbuf : m.buf x <;> simp [bwrite, data, hbuf]
  · simp [bwrite, data, hx]

theorem unref_data : (m.unref b).data = m.data := rfl

end Buffers

end Mem

/-! ## The functions of `log.c` -/

section Code

variable (victim : Nat → BlockNo) (start : BlockNo)

/-- `log.start+tail+1`. -/
def logBlock (tail : Nat) : BlockNo := start + UInt32.ofNat tail + 1

/-- One round of the loop of `write_log`. -/
def writeLogRound (tail : Nat) (b : BlockNo) (m : Mem) : Mem :=
  let dst := logBlock start tail
  let m := m.bread victim dst
  let m := m.bread victim b
  let m := m.setData dst (m.data b)
  let m := m.bwrite dst
  let m := m.unref b
  m.unref dst

/-- The loop of `write_log` from `tail` on. -/
def writeLogFrom (tail : Nat) : List BlockNo → Mem → Mem
  | [], m => m
  | b :: bs, m => writeLogFrom (tail + 1) bs (writeLogRound victim start tail b m)

def writeLog (m : Mem) : Mem := writeLogFrom victim start 0 m.lh m

/-- One round of the loop of `install_trans`. -/
def installRound (recovering : Bool) (tail : Nat) (b : BlockNo) (m : Mem) : Mem :=
  let lbuf := logBlock start tail
  let m := m.bread victim lbuf
  let m := m.bread victim b
  let m := m.setData b (m.data lbuf)
  let m := m.bwrite b
  let m := if recovering then m else m.unref b
  let m := m.unref lbuf
  m.unref b

/-- The loop of `install_trans` from `tail` on. -/
def installFrom (recovering : Bool) (tail : Nat) : List BlockNo → Mem → Mem
  | [], m => m
  | b :: bs, m => installFrom recovering (tail + 1) bs (installRound victim start recovering tail b m)

def installTrans (recovering : Bool) (m : Mem) : Mem := installFrom victim start recovering 0 m.lh m

def readHead (m : Mem) : Mem :=
  let m := m.bread victim start
  let m := { m with lh := (m.data start).header }
  m.unref start

def writeHead (m : Mem) : Mem :=
  let m := m.bread victim start
  let m := m.setData start ((m.data start).setHeader m.lh)
  let m := m.bwrite start
  m.unref start

def recoverFromLog (m : Mem) : Mem :=
  let m := readHead victim start m
  let m := installTrans victim start true m
  let m := m.reset
  writeHead victim start m

def commit (m : Mem) : Mem :=
  if 0 < m.lh.length then
    let m := writeLog victim start m
    let m := writeHead victim start m
    let m := installTrans victim start false m
    let m := m.reset
    writeHead victim start m
  else
    m

end Code

/-! ## The writes they make -/

/-- The code from `m` to `m'` makes the disk writes `ws`, and the buffers follow. -/
structure Issues (m m' : Mem) (ws : List (BlockNo × Block)) : Prop where
  disk : m'.disk = Writes.apply ws m.disk
  written : m'.written = m.written ++ Writes.trail ws m.disk
  data : ∀ x, m.Settled x → m'.data x = Writes.apply ws m.data x
  settled : ∀ x, m.Settled x → m'.Settled x

section Issues

variable {victim : Nat → BlockNo} {start : BlockNo} {m m' m'' : Mem} {b : BlockNo} {tail : Nat}
  {ws vs : List (BlockNo × Block)} {data data' : BlockNo → Block} {bs : List BlockNo} {size : Nat}

theorem Issues.refl (m : Mem) : Issues m m [] := ⟨rfl, by simp, fun _ _ => rfl, fun _ h => h⟩

theorem Issues.trans (h : Issues m m' ws) (h' : Issues m' m'' vs) : Issues m m'' (ws ++ vs) := by
  refine ⟨?_, ?_, ?_, ?_⟩
  · rw [h'.disk, h.disk, Writes.apply_append]
  · rw [h'.written, h.written, h.disk, Writes.trail_append, append_assoc]
  · intro x hx
    rw [h'.data x (h.settled x hx), Writes.apply_append]
    exact Writes.apply_congr (h.data x hx)
  · exact fun x hx => h'.settled x (h.settled x hx)

theorem Issues.single {v : Block} (hdisk : m'.disk = update m.disk b v)
    (hwritten : m'.written = m.written ++ [update m.disk b v])
    (hdata : ∀ x, m.Settled x → m'.data x = update m.data b v x)
    (hrefcnt : ∀ x, x ≠ b → m'.refcnt x = m.refcnt x) : Issues m m' [(b, v)] := by
  refine ⟨hdisk, by simpa using hwritten, hdata, ?_⟩
  intro x hx hzero
  rw [hdata x hx, hdisk]
  by_cases hxb : x = b
  · rw [hxb, update_self, update_self]
  · rw [update_of_ne hxb, update_of_ne hxb]
    exact hx (by rw [← hrefcnt x hxb, hzero])

attribute [local simp] Mem.unref Mem.bwrite

theorem writeLogRound_issues (victim : Nat → BlockNo) (hb : m.Settled b) (hne : b ≠ logBlock start tail) :
    Issues m (writeLogRound victim start tail b m) [(logBlock start tail, m.data b)] := by
  unfold writeLogRound
  generalize logBlock start tail = l at hne
  have hread : ((m.bread victim l).bread victim b).data b = m.data b := by
    rw [Mem.bread_data (Mem.bread_settled hb), Mem.bread_data hb]
  apply Issues.single
  · simp [Mem.setData_data, hread]
    simp [Mem.setData]
  · simp [Mem.setData_data, hread]
    simp [Mem.setData]
  · intro x hx
    simp only [Mem.unref_data, Mem.bwrite_data, Mem.setData_data, hread]
    by_cases hxl : x = l
    · rw [hxl, update_self, update_self]
    · rw [update_of_ne hxl, update_of_ne hxl,
        Mem.bread_data (Mem.bread_settled hx), Mem.bread_data hx]
  · intro x hxl
    by_cases hxb : x = b
    · subst hxb
      simp [Mem.setData, hxl]
    · simp [Mem.setData]

theorem installRound_issues (victim : Nat → BlockNo) (recovering : Bool) (hl : m.Settled (logBlock start tail))
    (hne : b ≠ logBlock start tail) :
    Issues m (installRound victim start recovering tail b m) [(b, m.data (logBlock start tail))] := by
  unfold installRound
  generalize logBlock start tail = l at hl hne
  have hread : ((m.bread victim l).bread victim b).data l = m.data l := by
    rw [Mem.bread_data (Mem.bread_settled hl), Mem.bread_data hl]
  apply Issues.single
  · cases recovering <;> simp [Mem.setData_data, hread] <;> simp [Mem.setData]
  · cases recovering <;> simp [Mem.setData_data, hread] <;> simp [Mem.setData]
  · intro x hx
    have hstore : (((m.bread victim l).bread victim b).setData b (m.data l)).data x
        = update m.data b (m.data l) x := by
      rw [Mem.setData_data]
      by_cases hxb : x = b
      · rw [hxb, update_self, update_self]
      · rw [update_of_ne hxb, update_of_ne hxb,
          Mem.bread_data (Mem.bread_settled hx), Mem.bread_data hx]
    cases recovering <;>
      simpa only [if_true, if_false, Bool.false_eq_true, Mem.unref_data, Mem.bwrite_data, hread]
        using hstore
  · intro x hxb
    by_cases hxl : x = l
    · subst hxl
      cases recovering <;> simp [Mem.setData, hxb]
    · cases recovering <;> simp [Mem.setData, hxl, hxb]

theorem writeHead_issues (victim : Nat → BlockNo) (hs : m.Settled start) :
    Issues m (writeHead victim start m) [(start, (m.data start).setHeader m.lh)] := by
  unfold writeHead
  have hread : (m.bread victim start).data start = m.data start := Mem.bread_data hs
  apply Issues.single
  · simp [Mem.setData_data, hread]
    simp [Mem.setData]
  · simp [Mem.setData_data, hread]
    simp [Mem.setData]
  · intro x hx
    simp only [Mem.unref_data, Mem.bwrite_data, Mem.setData_data, hread, Mem.bread_lh]
    by_cases hxs : x = start
    · rw [hxs, update_self, update_self]
    · rw [update_of_ne hxs, update_of_ne hxs, Mem.bread_data hx]
  · intro x _
    simp [Mem.setData]

/-! ### Loops -/

/-- The block lies in the log area, which starts at `start` and has `size` blocks. -/
def InLog (start : BlockNo) (size : Nat) (b : BlockNo) : Prop := (b - start).toNat < size

instance (start : BlockNo) (size : Nat) (b : BlockNo) : Decidable (InLog start size b) :=
  inferInstanceAs (Decidable ((b - start).toNat < size))

/-- The writes of `write_log` from `tail` on. -/
def logWrites (start : BlockNo) (data : BlockNo → Block) (tail : Nat) :
    List BlockNo → List (BlockNo × Block)
  | [] => []
  | b :: bs => (logBlock start tail, data b) :: logWrites start data (tail + 1) bs

/-- The writes of `install_trans` from `tail` on. -/
def installWrites (start : BlockNo) (data : BlockNo → Block) (tail : Nat) :
    List BlockNo → List (BlockNo × Block)
  | [] => []
  | b :: bs => (b, data (logBlock start tail)) :: installWrites start data (tail + 1) bs

section Loops

theorem logBlock_sub (start : BlockNo) (tail : Nat) :
    logBlock start tail - start = UInt32.ofNat (tail + 1) := by
  have hsum : logBlock start tail = UInt32.ofNat (tail + 1) + start := by
    rw [logBlock, UInt32.ofNat_add, UInt32.add_assoc, UInt32.add_comm start]
    rfl
  rw [hsum, UInt32.add_sub_cancel]

theorem logBlock_inLog (h : tail + 1 < size) : InLog start size (logBlock start tail) := by
  rw [InLog, logBlock_sub, UInt32.toNat_ofNat']
  exact lt_of_le_of_lt (Nat.mod_le _ _) h

theorem start_inLog (h : 0 < size) : InLog start size start := by
  rw [InLog, UInt32.sub_self]
  exact h

theorem logBlock_inj {i j : Nat} (hi : i < LOGSIZE) (hj : j < LOGSIZE)
    (h : logBlock start i = logBlock start j) : i = j := by
  have hi' : i < 30 := hi
  have hj' : j < 30 := hj
  have hsub := congrArg (fun b => (b - start).toNat) h
  simp only [logBlock_sub, UInt32.toNat_ofNat'] at hsub
  omega

theorem logBlock_ne_start (h : tail < LOGSIZE) : logBlock start tail ≠ start := by
  intro heq
  have h' : tail < 30 := h
  have hsub := congrArg (fun b => (b - start).toNat) heq
  simp only [logBlock_sub, UInt32.toNat_ofNat', UInt32.sub_self] at hsub
  change (tail + 1) % 2 ^ 32 = 0 at hsub
  omega

theorem logWrites_congr (h : ∀ b ∈ bs, data b = data' b) :
    logWrites start data tail bs = logWrites start data' tail bs := by
  induction bs generalizing tail with
  | nil => rfl
  | cons b bs ih =>
    rw [logWrites, logWrites, h b mem_cons_self,
      ih fun b' hb' => h b' (mem_cons_of_mem b hb')]

theorem writeLogFrom_issues (hlen : tail + bs.length < size)
    (hbs : ∀ b ∈ bs, m.Settled b ∧ ¬ InLog start size b) :
    Issues m (writeLogFrom victim start tail bs m) (logWrites start m.data tail bs) := by
  induction bs generalizing tail m with
  | nil => exact .refl m
  | cons b bs ih =>
    rw [length_cons] at hlen
    have hin : InLog start size (logBlock start tail) := logBlock_inLog (by omega)
    have hne : ∀ b', ¬ InLog start size b' → b' ≠ logBlock start tail := by
      rintro b' hb' rfl
      exact hb' hin
    rcases hbs b mem_cons_self with ⟨hb, hout⟩
    have hround := writeLogRound_issues victim hb (hne b hout)
    have hrest : ∀ b' ∈ bs, m.Settled b' ∧ ¬ InLog start size b' :=
      fun b' hb' => hbs b' (mem_cons_of_mem b hb')
    have hloop := @ih (writeLogRound victim start tail b m) (tail + 1) (by omega)
      fun b' hb' => ⟨hround.settled b' (hrest b' hb').1, (hrest b' hb').2⟩
    -- the blocks still to be copied are not in the log
    have hsame : logWrites start (writeLogRound victim start tail b m).data (tail + 1) bs
        = logWrites start m.data (tail + 1) bs := by
      refine logWrites_congr fun b' hb' => ?_
      rw [hround.data b' (hrest b' hb').1]
      exact update_of_ne (hne b' (hrest b' hb').2) _ _
    rw [hsame] at hloop
    exact hround.trans hloop

theorem installWrites_congr
    (h : ∀ j, tail ≤ j → j < tail + bs.length → data (logBlock start j) = data' (logBlock start j)) :
    installWrites start data tail bs = installWrites start data' tail bs := by
  induction bs generalizing tail with
  | nil => rfl
  | cons b bs ih =>
    rw [length_cons] at h
    rw [installWrites, installWrites, h tail (Nat.le_refl tail) (by omega),
      ih fun j hj hj' => h j (by omega) (by omega)]

theorem installFrom_issues {recovering : Bool} (hlen : tail + bs.length < size)
    (hbs : ∀ b ∈ bs, ¬ InLog start size b)
    (hlog : ∀ x, InLog start size x → m.Settled x) :
    Issues m (installFrom victim start recovering tail bs m)
      (installWrites start m.data tail bs) := by
  induction bs generalizing tail m with
  | nil => exact .refl m
  | cons b bs ih =>
    rw [length_cons] at hlen
    have hin : ∀ j, j < tail + (bs.length + 1) → InLog start size (logBlock start j) :=
      fun j hj => logBlock_inLog (by omega)
    have hne : ∀ j, j < tail + (bs.length + 1) → logBlock start j ≠ b := by
      rintro j hj rfl
      exact hbs _ mem_cons_self (hin j hj)
    have hround := installRound_issues victim recovering (m := m)
      (hlog _ (hin tail (by omega))) (hne tail (by omega)).symm
    have hloop := @ih (installRound victim start recovering tail b m) (tail + 1)
      (by omega) (fun b' hb' => hbs b' (mem_cons_of_mem b hb'))
      fun x hx => hround.settled x (hlog x hx)
    -- the log blocks still to be read are not among the blocks written
    have hsame : installWrites start (installRound victim start recovering tail b m).data
        (tail + 1) bs = installWrites start m.data (tail + 1) bs := by
      refine installWrites_congr fun j _ hj => ?_
      rw [hround.data _ (hlog _ (hin j (by omega)))]
      exact update_of_ne (hne j (by omega)) _ _
    rw [hsame] at hloop
    exact hround.trans hloop

end Loops

/-! ### `recover_from_log` and `commit` -/

@[simp] theorem writeLogFrom_lh (tail : Nat) (bs : List BlockNo) (m : Mem) :
    (writeLogFrom victim start tail bs m).lh = m.lh := by
  induction bs generalizing tail m with
  | nil => rfl
  | cons b bs ih => simp [writeLogFrom, ih, writeLogRound, Mem.setData]

@[simp] theorem writeHead_lh (m : Mem) : (writeHead victim start m).lh = m.lh := by
  simp [writeHead, Mem.setData]

theorem Issues.reset (h : Issues m m' ws) : Issues m m'.reset ws :=
  ⟨h.disk, h.written, h.data, h.settled⟩

theorem readHead_issues (victim : Nat → BlockNo) (start : BlockNo) (m : Mem) : Issues m (readHead victim start m) [] := by
  have hrefcnt : (readHead victim start m).refcnt = m.refcnt := by
    simp [readHead]
  have hdata : ∀ x, m.Settled x → (readHead victim start m).data x = m.data x :=
    fun x hx => Mem.bread_data hx
  have hdisk : (readHead victim start m).disk = m.disk := Mem.bread_disk
  refine ⟨hdisk, ?_, hdata, ?_⟩
  · simp [readHead]
  · intro x hx hzero
    rw [hdata x hx, hdisk]
    exact hx (by rw [← hrefcnt, hzero])

theorem readHead_lh (h : m.Settled start) :
    (readHead victim start m).lh = (m.data start).header := by
  have hread : (m.bread victim start).data start = m.data start := Mem.bread_data h
  rw [← hread]
  rfl

/-- A list of home blocks that fits in the log. -/
structure Fits (start : BlockNo) (size : Nat) (lh : List BlockNo) : Prop where
  logsize : lh.length ≤ LOGSIZE
  /-- one block of the area holds the header: `log.lh.n >= log.size - 1` is refused -/
  area : lh.length < size
  outside : ∀ b ∈ lh, ¬ InLog start size b

theorem Fits.start_notMem {lh : List BlockNo} (h : Fits start size lh) : start ∉ lh :=
  fun hmem => h.outside start hmem (start_inLog (Nat.zero_lt_of_lt h.area))

theorem map_fst_installWrites (data : BlockNo → Block) (tail : Nat) (bs : List BlockNo) :
    (installWrites start data tail bs).map Prod.fst = bs := by
  induction bs generalizing tail with
  | nil => rfl
  | cons b bs ih => rw [installWrites, map_cons, ih]

theorem installWrites_eq_map {data new : BlockNo → Block}
    (h : ∀ j (hj : j < bs.length), data (logBlock start (tail + j)) = new bs[j]) :
    installWrites start data tail bs = bs.map fun b => (b, new b) := by
  induction bs generalizing tail with
  | nil => rfl
  | cons b bs ih =>
    have hhead := h 0 (Nat.succ_pos _)
    rw [Nat.add_zero, getElem_cons_zero] at hhead
    have htail := @ih (tail + 1) fun j hj => by
      have hj' := h (j + 1) (Nat.succ_lt_succ hj)
      rwa [getElem_cons_succ, ← Nat.add_assoc, Nat.add_right_comm] at hj'
    rw [installWrites, map_cons, hhead, htail]

theorem mem_logWrites {x : BlockNo} (h : x ∈ (logWrites start data tail bs).map Prod.fst) :
    ∃ j, tail ≤ j ∧ j < tail + bs.length ∧ x = logBlock start j := by
  induction bs generalizing tail with
  | nil => cases h
  | cons b bs ih =>
    rw [length_cons]
    rcases mem_cons.1 h with rfl | h
    · exact ⟨tail, Nat.le_refl tail, by omega, rfl⟩
    · rcases ih h with ⟨j, hle, hlt, rfl⟩
      exact ⟨j, by omega, by omega, rfl⟩

theorem length_logWrites (data : BlockNo → Block) (bs : List BlockNo) (tail : Nat) :
    (logWrites start data tail bs).length = bs.length := by
  induction bs generalizing tail with
  | nil => rfl
  | cons b bs ih => rw [logWrites, length_cons, ih, length_cons]

theorem apply_logWrites (d : Disk)
    (hlen : tail + bs.length ≤ LOGSIZE) {j : Nat} (hj : j < bs.length) :
    Writes.apply (logWrites start data tail bs) d (logBlock start (tail + j)) = data bs[j] := by
  induction bs generalizing tail d j with
  | nil => cases hj
  | cons b bs ih =>
    rw [length_cons] at hlen hj
    rw [logWrites, Writes.apply]
    cases j with
    | zero =>
      have hlater : logBlock start tail ∉ (logWrites start data (tail + 1) bs).map Prod.fst := by
        intro hmem
        rcases mem_logWrites hmem with ⟨i, hle, hlt, heq⟩
        have := logBlock_inj (by omega) (by omega) heq
        omega
      refine (Writes.apply_of_notMem _ hlater).trans ?_
      exact update_self _ _ _
    | succ j =>
      have hindex : tail + (j + 1) = tail + 1 + j := by omega
      rw [getElem_cons_succ, hindex]
      exact ih _ (by omega) (by omega)

theorem install_clear_issues (victim : Nat → BlockNo) (recovering : Bool) (hfits : Fits start size m.lh)
    (hlog : ∀ x, InLog start size x → m.Settled x) :
    Issues m (writeHead victim start (installTrans victim start recovering m).reset)
      (installWrites start m.data 0 m.lh ++ [(start, (m.data start).setHeader [])]) := by
  have hstart : m.Settled start := hlog start (start_inLog (Nat.zero_lt_of_lt hfits.area))
  have hinstall : Issues m (installTrans victim start recovering m)
      (installWrites start m.data 0 m.lh) :=
    installFrom_issues (by simpa using hfits.area) hfits.outside hlog
  -- the header block is not among the home blocks
  have hheader : (installTrans victim start recovering m).reset.data start = m.data start := by
    refine (hinstall.data start hstart).trans (Writes.apply_of_notMem _ ?_)
    rw [map_fst_installWrites]
    exact hfits.start_notMem
  have hclear := writeHead_issues victim (hinstall.reset.settled start hstart)
  rw [hheader] at hclear
  exact hinstall.reset.trans hclear

theorem recover_issues (victim : Nat → BlockNo) (d : Disk) (hfits : Fits start size (d start).header) :
    Issues (.cold d) (recoverFromLog victim start (.cold d))
      (installWrites start d 0 (d start).header ++ [(start, (d start).setHeader [])]) := by
  have hcold : ∀ x, (Mem.cold d).Settled x := fun x _ => congrFun Mem.cold_data x
  have hread := readHead_issues victim start (.cold d)
  have hlh : (readHead victim start (.cold d)).lh = (d start).header := by
    rw [readHead_lh (hcold start), Mem.cold_data]
  have hdata : (readHead victim start (.cold d)).data = d := by
    funext x
    rw [hread.data x (hcold x), Writes.apply, Mem.cold_data]
  rw [← hlh] at hfits
  have hrest := install_clear_issues victim true hfits
    fun x _ => hread.settled x (hcold x)
  rw [hlh, hdata] at hrest
  have hall := hread.trans hrest
  rw [nil_append] at hall
  exact hall

/-- A transaction to be committed: the home blocks fit in the log and are pinned by `log_write`. -/
structure Transaction (start : BlockNo) (size : Nat) (m : Mem) : Prop where
  fits : Fits start size m.lh
  pinned : ∀ b ∈ m.lh, 0 < m.refcnt b

def commitWrites (start : BlockNo) (m : Mem) : List (BlockNo × Block) :=
  logWrites start m.data 0 m.lh ++ ((start, (m.data start).setHeader m.lh) ::
    (m.lh.map (fun b => (b, m.data b)) ++ [(start, ((m.data start).setHeader m.lh).setHeader [])]))

theorem commit_issues (victim : Nat → BlockNo) (ht : Transaction start size m)
    (hlogged : ∀ x, InLog start size x → m.Settled x) (hpos : 0 < m.lh.length) :
    Issues m (commit victim start m) (commitWrites start m) := by
  have hfits := ht.fits
  have hstart : InLog start size start := start_inLog (Nat.zero_lt_of_lt hfits.area)
  have hhome : ∀ b ∈ m.lh, m.Settled b := fun b hb hzero =>
    absurd hzero (Nat.pos_iff_ne_zero.1 (ht.pinned b hb))
  have hlog : Issues m (writeLog victim start m) (logWrites start m.data 0 m.lh) :=
    writeLogFrom_issues (by simpa using hfits.area) fun b hb => ⟨hhome b hb, hfits.outside b hb⟩
  have hhead := writeHead_issues victim
    (hlog.settled start (hlogged start hstart))
  have hlh : (writeLog victim start m).lh = m.lh := writeLogFrom_lh 0 m.lh m
  have hstart' : (writeLog victim start m).data start = m.data start := by
    refine (hlog.data start (hlogged start hstart)).trans (Writes.apply_of_notMem _ ?_)
    intro hmem
    rcases mem_logWrites hmem with ⟨j, -, hj, heq⟩
    exact logBlock_ne_start (by have := hfits.logsize; omega) heq.symm
  rw [hlh, hstart'] at hhead
  have hboth := hlog.trans hhead
  generalize hm' : writeHead victim start (writeLog victim start m) = m' at hboth
  have hlh' : m'.lh = m.lh := by rw [← hm', writeHead_lh, hlh]
  have hrest := install_clear_issues victim false (m := m')
    (by rw [hlh']; exact hfits) fun x hx => hboth.settled x (hlogged x hx)
  have hheader : m'.data start = (m.data start).setHeader m.lh := by
    rw [hboth.data start (hlogged start hstart), Writes.apply_append]
    exact update_self _ _ _
  -- the log holds the transaction
  have hcopy : installWrites start m'.data 0 m.lh = m.lh.map fun b => (b, m.data b) := by
    refine installWrites_eq_map fun j hj => ?_
    have hj' : j < LOGSIZE := lt_of_lt_of_le hj hfits.logsize
    have harea : InLog start size (logBlock start (0 + j)) :=
      logBlock_inLog (by have := hfits.area; omega)
    rw [hboth.data _ (hlogged _ harea), Writes.apply_append]
    refine (update_of_ne (logBlock_ne_start (by omega)) _ _).trans ?_
    exact apply_logWrites _ (by simpa using hfits.logsize) hj
  rw [hlh', hheader, hcopy] at hrest
  have hall := hboth.trans hrest
  rw [← hm', append_assoc] at hall
  have hcode : commit victim start m = writeHead victim start
      (installTrans victim start false (writeHead victim start (writeLog victim start m))).reset := by
    rw [commit, if_pos hpos]
  rw [hcode]
  exact hall

end Issues

end Xv6Schedulers.Log

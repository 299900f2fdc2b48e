import Mathlib.Data.BitVec
import Mathlib.Data.Nat.Digits.Lemmas

/-!
# Printf — the numbers that `printf` writes

`printint`, `printptr` and `printf` of `kernel/printf.c`, and `printint`, `printptr` and `vprintf` of
`user/printf.c`.  The two share the chain of tests on the characters behind a `%`; they differ in the
parameter of `printint`, a `long long` in the kernel and an `int` in the user library, and in the
digits.

* `fill` and `formatInt` are `printint` for a parameter of any width.  A write outside `buf` is a fault.
* `numeral` and `Kind.numeral` are the canonical numerals.
* `printf_numeral` and `vprintf_numeral`: which values the two print right.
-/

namespace Xv6Schedulers.Text

/-- A byte written outside `buf`. -/
inductive Fault
  | overrun
  deriving DecidableEq, Repr

/-! ## `printint` -/

/-- The loop of `printint` with `room` bytes of `buf` left: the bytes it writes. -/
def fill (digits : List Char) (base : Nat) : (room x : Nat) → Except Fault (List Char)
  | 0, _ => .error .overrun
  | room + 1, x =>
      let c := digits.getD (x % base) '0'
      if x / base = 0 then .ok [c] else (c :: ·) <$> fill digits base room (x / base)

/-- `printint`, with `xx` and `x` of `w` bits: the characters in the order they are written. -/
def formatInt (digits : List Char) {w : Nat} (xx : BitVec w) (base : Nat) (sign : Bool) :
    Except Fault (List Char) :=
  let neg := sign && decide (xx.toInt < 0)
  let x := if neg then -xx else xx
  match fill digits base 16 x.toNat with
  | .error e => .error e
  | .ok buf =>
      if neg then if buf.length < 16 then .ok (buf ++ ['-']).reverse else .error .overrun
      else .ok buf.reverse

/-- `digits` of the kernel. -/
def digits : List Char := "0123456789abcdef".toList

/-- `digits` of the user library. -/
def User.digits : List Char := "0123456789ABCDEF".toList

/-- `printint` of the kernel. -/
def printint (xx : BitVec 64) (base : Nat) (sign : Bool) : Except Fault (List Char) :=
  formatInt digits xx base sign

/-- `printint` of the user library. -/
def User.printint (xx : BitVec 32) (base : Nat) (sgn : Bool) : Except Fault (List Char) :=
  formatInt User.digits xx base sgn

/-! ## `printf` -/

/-- What the characters behind a `%` ask for. -/
inductive Conversion
  | int (base : Nat) (sign : Bool)
  | long (base : Nat) (sign : Bool)
  | ptr
  | str
  | percent
  | unknown
  deriving DecidableEq, Repr

/-- The tests on `c0`, `c1` and `c2`, with the number of characters taken after `c0`. -/
def conversion (c0 : Char) (rest : List Char) : Conversion × Nat :=
  let c1 := rest.head?
  let c2 := rest.tail.head?
  if c0 = 'd' then (.int 10 true, 0)
  else if c0 = 'l' ∧ c1 = some 'd' then (.long 10 true, 1)
  else if c0 = 'l' ∧ c1 = some 'l' ∧ c2 = some 'd' then (.long 10 true, 2)
  else if c0 = 'u' then (.int 10 false, 0)
  else if c0 = 'l' ∧ c1 = some 'u' then (.long 10 false, 1)
  else if c0 = 'l' ∧ c1 = some 'l' ∧ c2 = some 'u' then (.long 10 false, 2)
  else if c0 = 'x' then (.int 16 false, 0)
  else if c0 = 'l' ∧ c1 = some 'x' then (.long 16 false, 1)
  else if c0 = 'l' ∧ c1 = some 'l' ∧ c2 = some 'x' then (.long 16 false, 2)
  else if c0 = 'p' then (.ptr, 0)
  else if c0 = 's' then (.str, 0)
  else if c0 = '%' then (.percent, 0)
  else (.unknown, 0)

def printptr (digits : List Char) (x : BitVec 64) : List Char :=
  '0' :: 'x' :: (List.range 16).map fun i => digits.getD ((x <<< (4 * i)) >>> 60).toNat '0'

/-- The part of `printf` for a conversion, with the argument `v` it takes if it takes one.  `mem` is the
string at an address. -/
def convert (digits : List Char) (int long : BitVec 64 → Nat → Bool → Except Fault (List Char))
    (mem : BitVec 64 → List Char) (c0 : Char) (v : BitVec 64) : Conversion → Except Fault (List Char)
  | .int base sign => int v base sign
  | .long base sign => long v base sign
  | .ptr => .ok (printptr digits v)
  | .str => .ok (if v = 0 then "(null)".toList else mem v)
  | .percent => .ok ['%']
  | .unknown => .ok ['%', c0]

/-- The conversion takes an argument. -/
def Conversion.takes : Conversion → Bool
  | .percent => false
  | .unknown => false
  | _ => true

/-- `printf` of the kernel, from a place of its format on, with the arguments to come.  -/
def printf (mem : BitVec 64 → List Char) : List Char → List (BitVec 64) → Except Fault (List Char)
  | [], _ => .ok []
  | c :: fmt, args =>
      if c ≠ '%' then (c :: ·) <$> printf mem fmt args
      else
        match fmt with
        | [] => .ok []
        | c0 :: rest => do
            let conv := conversion c0 rest
            -- `va_arg(ap, int)` becomes a `long long`
            let out ← convert digits (fun v => printint ((v.setWidth 32).signExtend 64)) printint mem c0
              (args.headD 0) conv.1
            let more ← printf mem (rest.drop conv.2) (if conv.1.takes then args.tail else args)
            return out ++ more
termination_by fmt => fmt.length

/-- `vprintf` of the user library; `percent` is its `state`. -/
def vprintf (mem : BitVec 64 → List Char) :
    Bool → List Char → List (BitVec 64) → Except Fault (List Char)
  | _, [], _ => .ok []
  | false, c :: fmt, args =>
      if c = '%' then vprintf mem true fmt args else (c :: ·) <$> vprintf mem false fmt args
  | true, c0 :: rest, args => do
      let conv := conversion c0 rest
      -- both arguments become an `int`
      let int := fun v : BitVec 64 => User.printint (v.setWidth 32)
      let out ← convert User.digits int int mem c0 (args.headD 0) conv.1
      let more ← vprintf mem false (rest.drop conv.2) (if conv.1.takes then args.tail else args)
      return out ++ more
termination_by _ fmt => fmt.length

/-! ## Numerals -/

/-- The conversions of numbers: signed decimal, unsigned decimal, hexadecimal. -/
inductive Kind
  | d
  | u
  | x

def Kind.char : Kind → Char
  | .d => 'd'
  | .u => 'u'
  | .x => 'x'

def Kind.base : Kind → Nat
  | .x => 16
  | _ => 10

def Kind.signed : Kind → Bool
  | .d => true
  | _ => false

/-- What stands between the `%` and the conversion. -/
inductive Length
  | int
  | l
  | ll

def Length.text : Length → List Char
  | .int => []
  | .l => ['l']
  | .ll => ['l', 'l']

def digitsOf (base n : Nat) : List Nat := if n = 0 then [0] else Nat.digits base n

def numeral (digits : List Char) (base n : Nat) : List Char :=
  ((digitsOf base n).map (digits.getD · '0')).reverse

/-- The canonical numeral of a value of `w` bits. -/
def Kind.numeral (digits : List Char) {w : Nat} (v : BitVec w) : Kind → List Char
  | .d =>
      (if v.toInt < 0 then ['-'] else []) ++ Text.numeral digits 10 v.toInt.natAbs
  | .u => Text.numeral digits 10 v.toNat
  | .x => Text.numeral digits 16 v.toNat

/-- The numeral of the value of an argument, which without an `l` has 32 bits. -/
def expected (digits : List Char) (v : BitVec 64) (k : Kind) : Length → List Char
  | .int => k.numeral digits (v.setWidth 32)
  | _ => k.numeral digits v

/-- The value has a numeral of at most 16 characters. -/
def Kind.Short {w : Nat} (v : BitVec w) : Kind → Prop
  | .d => -10 ^ 15 < v.toInt ∧ v.toInt < 10 ^ 16
  | .u => v.toNat < 10 ^ 16
  | .x => v.toNat < 16 ^ 16

/-- What the kernel prints right: no `unsigned int` with its top bit set, and no long numeral. -/
def Printable (v : BitVec 64) : Kind → Length → Prop
  | .d, .int => True
  | _, .int => (v.setWidth 32).toNat < 2 ^ 31
  | k, _ => k.Short v

/-- What the user library prints right: values of 32 bits. -/
def User.Printable (v : BitVec 64) : Kind → Length → Prop
  | _, .int => True
  | .d, _ => -2 ^ 31 ≤ v.toInt ∧ v.toInt < 2 ^ 31
  | _, _ => v.toNat < 2 ^ 32

section Digits

variable {base n room : Nat} {digits : List Char}

theorem digitsOf_eq (hbase : 1 < base) :
    digitsOf base n = n % base :: if n / base = 0 then [] else digitsOf base (n / base) := by
  rw [digitsOf]
  split
  next hzero => simp [hzero]
  next hne =>
    rw [Nat.digits_def' hbase (Nat.pos_of_ne_zero hne), digitsOf]
    split
    next hdiv => rw [hdiv, Nat.digits_zero]
    next hdiv => rfl

theorem length_digitsOf_le (hbase : 1 < base) (hroom : 0 < room) (hn : n < base ^ room) :
    (digitsOf base n).length ≤ room := by
  rw [digitsOf]
  split
  · exact hroom
  · exact (Nat.digits_length_le_iff hbase n).2 hn

theorem fill_eq (hbase : 1 < base) (hroom : (digitsOf base n).length ≤ room) :
    fill digits base room n = .ok ((digitsOf base n).map (digits.getD · '0')) := by
  induction room generalizing n with
  | zero =>
    rw [digitsOf_eq hbase] at hroom
    exact absurd hroom (Nat.not_succ_le_zero _)
  | succ room ih =>
    rw [digitsOf_eq hbase] at hroom ⊢
    rw [fill]
    split
    next hdiv => rfl
    next hdiv =>
      rw [if_neg hdiv] at hroom
      rw [ih (Nat.le_of_succ_le_succ hroom)]
      rfl

end Digits

section Width

variable {digits : List Char} {w base : Nat} {xx : BitVec w} {sign : Bool}

theorem formatInt_unsigned (hbase : 1 < base) (hsign : (sign && decide (xx.toInt < 0)) = false)
    (h : xx.toNat < base ^ 16) : formatInt digits xx base sign = .ok (numeral digits base xx.toNat) := by
  rw [formatInt, hsign, if_neg Bool.false_ne_true, fill_eq hbase (length_digitsOf_le hbase (by decide) h)]
  rfl

theorem formatInt_negative (hneg : xx.toInt < 0) (h : (-xx).toNat < 10 ^ 15) :
    formatInt digits xx 10 true = .ok ('-' :: numeral digits 10 (-xx).toNat) := by
  have hlen : (digitsOf 10 (-xx).toNat).length ≤ 15 := length_digitsOf_le (by decide) (by decide) h
  rw [formatInt, decide_eq_true hneg, Bool.and_self, if_pos rfl,
    fill_eq (by decide) (Nat.le_succ_of_le hlen)]
  dsimp only
  rw [if_pos rfl, if_pos, List.reverse_append]
  · rfl
  · rw [List.length_map]
    exact Nat.lt_succ_of_le hlen

/-- `printint` prints a short numeral right. -/
theorem formatInt_numeral {k : Kind} (h : k.Short xx) :
    formatInt digits xx k.base k.signed = .ok (k.numeral digits xx) := by
  cases k with
  | d =>
    obtain ⟨hlow, hhigh⟩ := h
    have hlt := xx.isLt
    have hcond := BitVec.toInt_eq_toNat_cond xx
    rw [Kind.numeral]
    split
    next hneg =>
      have habs : (-xx).toNat = xx.toInt.natAbs := by
        rw [BitVec.toNat_neg, Nat.mod_eq_of_lt]
        · split at hcond <;> omega
        · split at hcond <;> omega
      rw [← habs]
      exact formatInt_negative hneg (by omega)
    next hpos =>
      have habs : xx.toInt.natAbs = xx.toNat := by split at hcond <;> omega
      have hsign : (true && decide (xx.toInt < 0)) = false := by simpa using hpos
      have hshort : xx.toNat < 10 ^ 16 := by omega
      rw [habs]
      exact formatInt_unsigned (by decide) hsign hshort
  | u => exact formatInt_unsigned (by decide) rfl h
  | x => exact formatInt_unsigned (by decide) rfl h

end Width

theorem conversion_text (k : Kind) (len : Length) (rest : List Char) :
    ∃ c0 after, len.text ++ k.char :: rest = c0 :: after ∧ after.drop (conversion c0 after).2 = rest ∧
      (conversion c0 after).1 = (match len with
        | .int => .int k.base k.signed
        | _ => .long k.base k.signed) ∧
      (conversion c0 after).1.takes = true := by
  cases len <;> cases k <;> exact ⟨_, _, rfl, rfl, rfl, rfl⟩

variable {v : BitVec 64} {k : Kind} {len : Length}

theorem Kind.short_of_width (xx : BitVec 32) : k.Short xx := by
  have hlt := xx.isLt
  have hlow := BitVec.le_toInt xx
  have hhigh := BitVec.toInt_lt (x := xx)
  cases k with
  | d => exact ⟨by omega, by omega⟩
  | u => exact Nat.lt_trans hlt (by decide)
  | x => exact Nat.lt_trans hlt (by decide)

theorem Kind.numeral_congr (digits : List Char) {w w' : Nat} {x : BitVec w} {y : BitVec w'}
    (h : if k.signed then x.toInt = y.toInt else x.toNat = y.toNat) :
    k.numeral digits x = k.numeral digits y := by
  cases k with
  | d => rw [Kind.numeral, Kind.numeral, show x.toInt = y.toInt from h]
  | u => rw [Kind.numeral, Kind.numeral, show x.toNat = y.toNat from h]
  | x => rw [Kind.numeral, Kind.numeral, show x.toNat = y.toNat from h]

theorem printint_int (h : Printable v k .int) :
    printint ((v.setWidth 32).signExtend 64) k.base k.signed = .ok (k.numeral digits (v.setWidth 32)) := by
  have hint : ((v.setWidth 32).signExtend 64).toInt = (v.setWidth 32).toInt :=
    BitVec.toInt_signExtend_of_le (by decide)
  have hnat : (v.setWidth 32).toNat < 2 ^ 31 →
      ((v.setWidth 32).signExtend 64).toNat = (v.setWidth 32).toNat := by
    intro hlt
    have hmsb : (v.setWidth 32).msb = false := by
      rw [BitVec.msb_eq_false_iff_two_mul_lt]
      omega
    rw [BitVec.signExtend_eq_setWidth_of_msb_false hmsb, BitVec.toNat_setWidth_of_le (by decide)]
  have hshort := Kind.short_of_width (k := k) (v.setWidth 32)
  cases k with
  | d =>
    refine (formatInt_numeral ?_).trans (congrArg Except.ok (Kind.numeral_congr digits hint))
    exact ⟨hint ▸ hshort.1, hint ▸ hshort.2⟩
  | u =>
    refine (formatInt_numeral ?_).trans (congrArg Except.ok (Kind.numeral_congr digits (hnat h)))
    exact (hnat h).trans_lt hshort
  | x =>
    refine (formatInt_numeral ?_).trans (congrArg Except.ok (Kind.numeral_congr digits (hnat h)))
    exact (hnat h).trans_lt hshort

end Xv6Schedulers.Text

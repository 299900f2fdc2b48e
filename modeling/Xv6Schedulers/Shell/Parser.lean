import Mathlib.Data.List.TakeWhile
import Xv6Schedulers.Lib.Exec

/-!
# Parser — `gettoken`, `peek` and the parser of `sh.c`

The line is a list of bytes without NUL; pointers into it are positions, `es` is its length, and the
byte at `es` is the terminating NUL.

* `*ps` is the state of the code, so that `gettoken` and `peek` move it.
* The node that `parseexec` allocates is filled in while redirections are put around it; here they are
  collected in order and put around the finished node.
* The procedures get a number of rounds.  The allocations are taken to succeed.
-/

namespace Xv6Schedulers.Shell

open Lib

def MAXARGS : Nat := 10

/-- `whitespace`: blank, tab, carriage return, newline and vertical tab. -/
def whitespace : List UInt8 := [0x20, 0x09, 0x0d, 0x0a, 0x0b]

/-- `symbols`: the characters of `<|>&;()`. -/
def symbols : List UInt8 := [0x3c, 0x7c, 0x3e, 0x26, 0x3b, 0x28, 0x29]

/-- What `gettoken` returns, apart from 0: `append` is `'+'`, `word` is `'a'`. -/
inductive Kind
  | word | input | output | append | bar | amp | semi | lparen | rparen
  deriving DecidableEq, Repr

structure Token where
  kind : Kind
  q : Nat
  eq : Nat
  deriving DecidableEq, Repr

/-- A word of the line, as the pointers to its start and its end. -/
structure Word where
  q : Nat
  eq : Nat
  deriving DecidableEq, Repr

structure Redir where
  file : Word
  mode : Nat
  fd : Nat
  deriving DecidableEq, Repr

inductive Cmd
  /-- the entries of `argv` and `eargv` before the null pointer -/
  | exec (argv : List Word)
  | redir (cmd : Cmd) (r : Redir)
  | pipe (left right : Cmd)
  | list (left right : Cmd)
  | back (cmd : Cmd)
  deriving DecidableEq, Repr

inductive Message
  | syntaxError | missingFile | parseblock | missingParen | tooManyArgs
  deriving DecidableEq, Repr

inductive Stop
  | panic (m : Message)
  | rounds
  deriving DecidableEq, Repr

abbrev Parse := Exec Stop Nat

/-! ## Tokens -/

/-- `*s` -/
def char (line : List UInt8) (s : Nat) : UInt8 := line.getD s 0

/-- `while(s < es && p(*s)) s++;` -/
def scan (p : UInt8 → Bool) (line : List UInt8) (s : Nat) : Nat :=
  s + ((line.drop s).takeWhile p).length

def isSpace (c : UInt8) : Bool := whitespace.contains c

def inWord (c : UInt8) : Bool := !whitespace.contains c && !symbols.contains c

/-- The `switch` of `gettoken` at `s`: what is returned, and where the token ends. -/
def tokenAt (line : List UInt8) (s : Nat) : Option Kind × Nat :=
  match char line s with
  | 0x00 => (none, s)
  | 0x7c => (some .bar, s + 1)
  | 0x28 => (some .lparen, s + 1)
  | 0x29 => (some .rparen, s + 1)
  | 0x3b => (some .semi, s + 1)
  | 0x26 => (some .amp, s + 1)
  | 0x3c => (some .input, s + 1)
  | 0x3e => if char line (s + 1) = 0x3e then (some .append, s + 2) else (some .output, s + 1)
  | _ => (some .word, scan inWord line s)

/-- `gettoken`: the kind of the token, `q` and `eq`. -/
def gettoken (line : List UInt8) : Parse (Option Kind × Word) := fun s =>
  let s := scan isSpace line s
  let (ret, e) := tokenAt line s
  .ok ((ret, ⟨s, e⟩), scan isSpace line e)

def peek (line : List UInt8) (toks : List UInt8) : Parse Bool := fun s =>
  let s := scan isSpace line s
  .ok (char line s != 0 && toks.contains (char line s), s)

/-! ## Commands -/

/-- The redirections around a command, the last one outermost. -/
def wrap (cmd : Cmd) (rs : List Redir) : Cmd := rs.foldl Cmd.redir cmd

/-- The `switch` of `parseredirs`. -/
def redirOf (file : Word) : Kind → Option Redir
  | .input => some ⟨file, 0x000, 0⟩
  | .output => some ⟨file, 0x001 ||| 0x200 ||| 0x400, 1⟩
  | .append => some ⟨file, 0x001 ||| 0x200, 1⟩
  | _ => none

section Procedures

variable (line : List UInt8)

/-- `parseredirs`: the redirections, in order. -/
def parseredirs : Nat → Parse (List Redir)
  | 0 => throw .rounds
  | n + 1 => do
      if ← peek line [0x3c, 0x3e] then
        let tok ← gettoken line
        let file ← gettoken line
        if file.1 = some .word then
          let rs ← parseredirs n
          pure ((tok.1.bind (redirOf file.2)).toList ++ rs)
        else
          throw (.panic .missingFile)
      else
        pure []

/-- The loop of `parseexec`, with the entries of `argv` so far: those that follow, and the
redirections. -/
def parseargs : Nat → Nat → Parse (List Word × List Redir)
  | 0, _ => throw .rounds
  | n + 1, argc => do
      if ← peek line [0x7c, 0x29, 0x26, 0x3b] then
        pure ([], [])
      else
        let tok ← gettoken line
        match tok.1 with
        | none => pure ([], [])
        | some .word =>
            if argc + 1 ≥ MAXARGS then
              throw (.panic .tooManyArgs)
            else
              let rs ← parseredirs line n
              let rest ← parseargs n (argc + 1)
              pure (tok.2 :: rest.1, rs ++ rest.2)
        | some _ => throw (.panic .syntaxError)

/-- `while(peek(ps, es, "&"))` of `parseline`. -/
def parseback : Nat → Cmd → Parse Cmd
  | 0, _ => throw .rounds
  | n + 1, cmd => do
      if ← peek line [0x26] then
        let _ ← gettoken line
        parseback n (.back cmd)
      else
        pure cmd

mutual

def parseline : Nat → Parse Cmd
  | 0 => throw .rounds
  | n + 1 => do
      let cmd ← parsepipe n
      let cmd ← parseback line n cmd
      if ← peek line [0x3b] then
        let _ ← gettoken line
        let right ← parseline n
        pure (.list cmd right)
      else
        pure cmd

def parsepipe : Nat → Parse Cmd
  | 0 => throw .rounds
  | n + 1 => do
      let cmd ← parseexec n
      if ← peek line [0x7c] then
        let _ ← gettoken line
        let right ← parsepipe n
        pure (.pipe cmd right)
      else
        pure cmd

def parseblock : Nat → Parse Cmd
  | 0 => throw .rounds
  | n + 1 => do
      if ← peek line [0x28] then
        let _ ← gettoken line
        let cmd ← parseline n
        if ← peek line [0x29] then
          let _ ← gettoken line
          let rs ← parseredirs line n
          pure (wrap cmd rs)
        else
          throw (.panic .missingParen)
      else
        throw (.panic .parseblock)

def parseexec : Nat → Parse Cmd
  | 0 => throw .rounds
  | n + 1 => do
      if ← peek line [0x28] then
        parseblock n
      else
        let rs ← parseredirs line n
        let args ← parseargs line n 0
        pure (wrap (.exec args.1) (rs ++ args.2))

end

/-- `parsecmd` up to the call of `nulterminate`. -/
def parse : Parse Cmd := do
  let cmd ← parseline line (4 * line.length + 4)
  let _ ← peek line []
  let s ← Exec.read id
  if s ≠ line.length then
    throw (.panic .syntaxError)
  else
    pure cmd

end Procedures

/-- `nulterminate`, on the bytes of the buffer. -/
def nulterminate : Cmd → List UInt8 → List UInt8
  | .exec argv, buf => argv.foldl (fun buf w => buf.set w.eq 0) buf
  | .redir cmd r, buf => (nulterminate cmd buf).set r.file.eq 0
  | .pipe left right, buf => nulterminate right (nulterminate left buf)
  | .list left right, buf => nulterminate right (nulterminate left buf)
  | .back cmd, buf => nulterminate cmd buf

/-- `parsecmd`: the tree, and the buffer with the line and its NUL as it is left. -/
def parsecmd (line : List UInt8) : Except Stop (Cmd × List UInt8) :=
  match parse line 0 with
  | .error e => .error e
  | .ok (cmd, _) => .ok (cmd, nulterminate cmd (line ++ [0]))

end Xv6Schedulers.Shell

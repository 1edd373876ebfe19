import Pintos.Lib.String
import Pintos.Filesys.Directory

/-!
# The splitting of a path, in memory

`name_resolution` on the buffers that it works with. A buffer is the list of its bytes, and a
pointer into it is a place.
-/

namespace Pintos.Filesys.Path

open Pintos.Lib

/-- What stops a function. -/
inductive Fault
  /-- An assertion fails. -/
  | assertion
  /-- A byte outside of a buffer is read or written. -/
  | outside
  /-- A loop takes more rounds than it has been given. -/
  | rounds
  deriving DecidableEq, Repr

/-! ## `string.c` -/

/-- `buf[k]`. -/
def load (buf : List UInt8) (k : Nat) : Except Fault UInt8 :=
  match buf[k]? with
  | some b => .ok b
  | none => .error .outside

/-- `buf[k] = b`. -/
def store (buf : List UInt8) (k : Nat) (b : UInt8) : Except Fault (List UInt8) :=
  if k < buf.length then .ok (buf.set k b) else .error .outside

/-- `memcpy`, from place `j` of `src` to place `k` of `dst`. -/
def memcpy (src : List UInt8) : (dst : List UInt8) → (k j : Nat) → (size : Nat) →
    Except Fault (List UInt8)
  | dst, _, _, 0 => .ok dst
  | dst, k, j, size + 1 => do
    let b ← load src j
    let dst ← store dst k b
    memcpy src dst (k + 1) (j + 1) size

/-- The loop of `strlen`, over the bytes from a place on. -/
def strlenLoop : List UInt8 → Except Fault Nat
  | [] => .error .outside
  | b :: rest => if b = 0 then .ok 0 else (strlenLoop rest).map (· + 1)

/-- `strlen`, of the string at place `k`. -/
def strlen (buf : List UInt8) (k : Nat) : Except Fault Nat := strlenLoop (buf.drop k)

/-! ## `name_resolution` -/

/-- A buffer that is written from the front, and the place that is written next. -/
structure Output where
  buf : List UInt8
  pos : Nat

/-- The name in `last_token` goes to `directory`, with a `'/'` behind it. `none` is `""`. -/
def Output.add (directory : Output) (s : List UInt8) : (lastToken : Option Nat) →
    Except Fault Output
  | none => .ok directory
  | some lastToken => do
    let tokenL ← strlen s lastToken
    if tokenL > 0 then
      let buf ← memcpy s directory.buf directory.pos lastToken tokenL
      let buf ← store buf (directory.pos + tokenL) slash
      return { buf, pos := directory.pos + (tokenL + 1) }
    else return directory

/-- The loop of `name_resolution`, with what the last call of `strtok_r` has given: the token, `s`
and `p`. Returns `directory`, `s` and `last_token`. -/
def splitLoop : (rounds : Nat) → (directory : Output) → (lastToken : Option Nat) →
    Option Nat × List UInt8 × Nat → Except Fault (Output × List UInt8 × Option Nat)
  | 0, _, _, _ => .error .rounds
  | _ + 1, directory, lastToken, (none, s, _) => .ok (directory, s, lastToken)
  | rounds + 1, directory, lastToken, (some token, s, p) => do
    let directory ← directory.add s lastToken
    splitLoop rounds directory (some token) (Lib.strtokR [slash] s p)

/-- The first lines of `name_resolution`, for an absolute path. -/
def Output.start (directory : List UInt8) (path : List UInt8) : Except Fault Output :=
  if path.head? = some slash then do
    let buf ← store directory 0 slash
    return { buf, pos := 1 }
  else .ok { buf := directory, pos := 0 }

/-- `filename` gets the name in `last_token`. -/
def copyName (filename s : List UInt8) : (lastToken : Option Nat) → Except Fault (List UInt8)
  | none => memcpy [0] filename 0 0 1
  | some lastToken => do
    let tokenL ← strlen s lastToken
    memcpy s filename 0 lastToken (tokenL + 1)

/-- `name_resolution`, on a path that is given without the NUL at its end. `alloc` is whether
`malloc` gives memory for `s`. Returns the buffers of `directory` and `filename`. -/
def nameResolution (alloc : Bool) (rounds : Nat) (path : List UInt8)
    (directory filename : List UInt8) : Except Fault (List UInt8 × List UInt8) :=
  if alloc then do
    let s := path ++ [0]
    let directory ← Output.start directory path
    let (directory, s, lastToken) ← splitLoop rounds directory none (Lib.strtokR [slash] s 0)
    let buf ← store directory.buf directory.pos 0
    let filename ← copyName filename s lastToken
    return (buf, filename)
  else .error .assertion

end Pintos.Filesys.Path

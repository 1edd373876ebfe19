import Pintos.Filesys.Inode

/-!
# Directories and paths

`filesys/directory.c`. A directory is a file of 20-byte entries. Entry 0 belongs to the
parent: its `inode_sector` is where `..` leads, and lookups start behind it.
-/

namespace Pintos.Filesys

open Pintos.Logic Pintos.Logic.Exec Pintos.Lib

/-! ## Strings -/

/-- A C string, without the NUL at its end. -/
structure CString where
  bytes : List UInt8
  nul_free : 0 ∉ bytes

namespace CString

/-- `strlen`. -/
def length (s : CString) : Nat := s.bytes.length

@[ext] theorem ext {s t : CString} (h : s.bytes = t.bytes) : s = t := by
  cases s; cases t; cases h; rfl

instance : DecidableEq CString := fun s t =>
  decidable_of_iff (s.bytes = t.bytes) ⟨ext, fun h => h ▸ rfl⟩

/-- A part of a string is a string. -/
def part (s : CString) (bytes : List UInt8) (h : bytes ⊆ s.bytes) : CString :=
  ⟨bytes, fun h0 => s.nul_free (h h0)⟩

end CString

/-- The byte `'/'`. -/
abbrev slash : UInt8 := 47

/-- `"."`. -/
def dot : CString := ⟨[46], by decide⟩

/-- `".."`. -/
def dotDot : CString := ⟨[46, 46], by decide⟩

/-- `strtok_r` with the delimiter `'/'`: a token and the string left after it. -/
def strtokR (s : CString) : Option (CString × CString) :=
  let t := s.bytes.dropWhile (· == slash)
  have ht : t ⊆ s.bytes := (List.dropWhile_sublist _).subset
  if t = [] then none
  else some
    (s.part (t.takeWhile (· != slash)) (List.Subset.trans (List.takeWhile_sublist _).subset ht),
      s.part ((t.dropWhile (· != slash)).drop 1)
        (List.Subset.trans ((List.drop_sublist 1 _).trans (List.dropWhile_sublist _)).subset ht))

/-- The tokens that repeated calls of `strtok_r` give, at most `fuel` of them. -/
def tokensFrom : (fuel : Nat) → CString → List CString
  | 0, _ => []
  | fuel + 1, s =>
    match strtokR s with
    | none => []
    | some (token, rest) => token :: tokensFrom fuel rest

/-- All tokens of a path. -/
def tokens (path : CString) : List CString := tokensFrom path.length path

/-- The loop of `name_resolution`: each token but the last goes to `directory`. -/
def splitTokens (directory lastToken : List UInt8) : List CString → List UInt8 × List UInt8
  | [] => (directory, lastToken)
  | token :: rest =>
    splitTokens (if lastToken = [] then directory else directory ++ lastToken ++ [slash])
      token.bytes rest

/-- The strings `name_resolution` leaves in `directory` and `filename`. -/
def splitPath (path : CString) : List UInt8 × List UInt8 :=
  splitTokens (if path.bytes.head? = some slash then [slash] else []) [] (tokens path)

theorem splitTokens_nul_free {directory lastToken : List UInt8} (hd : 0 ∉ directory)
    (hl : 0 ∉ lastToken) (ts : List CString) :
    0 ∉ (splitTokens directory lastToken ts).1 ∧ 0 ∉ (splitTokens directory lastToken ts).2 := by
  induction ts generalizing directory lastToken with
  | nil => exact ⟨hd, hl⟩
  | cons token rest ih =>
    refine ih ?_ token.nul_free
    split
    · exact hd
    · simp only [List.mem_append, List.mem_singleton, not_or]
      exact ⟨⟨hd, hl⟩, by decide⟩

theorem splitPath_nul_free (path : CString) :
    0 ∉ (splitPath path).1 ∧ 0 ∉ (splitPath path).2 := by
  refine splitTokens_nul_free ?_ (by simp) _
  split
  · decide
  · simp

/-- `name_resolution`. -/
def nameResolution (path : CString) : Kernel (CString × CString) := do
  mallocUnchecked
  return (⟨(splitPath path).1, (splitPath_nul_free path).1⟩,
    ⟨(splitPath path).2, (splitPath_nul_free path).2⟩)

/-! ## Directory entries -/

/-- `sizeof (struct dir_entry)`. -/
abbrev dirEntrySize : Nat := 20

/-- `NAME_MAX`. -/
abbrev nameMax : Nat := 14

namespace DirEntry

/-- The field `inode_sector`. -/
def inodeSector (e : DirEntry) : Nat := e.word 0

/-- The field `in_use`. -/
def inUse (e : DirEntry) : Bool := e.byte 19 != 0

/-- The string that starts at the field `name`. It ends with the entry at the latest. -/
def name (e : DirEntry) : List UInt8 := (e.slice 4 16).takeWhile (· != 0)

/-- Assigns to `inode_sector`. -/
def setInodeSector (e : DirEntry) (sector : Nat) : DirEntry := e.setWord 0 sector

/-- Assigns to `in_use`. -/
def setInUse (e : DirEntry) (inUse : Bool) : DirEntry :=
  e.splice 19 1 fun _ => if inUse then 1 else 0

/-- `strlcpy (e.name, name, sizeof e.name)`. -/
def setName (e : DirEntry) (name : CString) : DirEntry :=
  let len := min name.length nameMax
  e.splice 4 (len + 1) fun k => if k < len then name.bytes.getD k 0 else 0

end DirEntry

/-- Reads an entry into `e`. Returns whether it was read whole. -/
def readEntry (dir : Dir) (ofs : Int) (e : DirEntry) : Kernel (Bool × DirEntry) := do
  let bytes ← inodeReadAt dir.inode dirEntrySize ofs
  return (bytes.length = dirEntrySize, e.splice 0 bytes.length fun k => bytes.getD k 0)

/-- Writes the entry `e`. Returns whether it was written whole. -/
def writeEntry (inode : Addr) (ofs : Int) (e : DirEntry) : Kernel Bool := do
  let written ← inodeWriteAt inode e.byte dirEntrySize ofs
  return written = dirEntrySize

/-- The loop shared by `lookup`, `dir_is_empty` and `dir_add`: reads entries into `e` from
`ofs` on, up to the first that `stop`s it. Returns whether there is one, and where. -/
def scanEntries (dir : Dir) (stop : DirEntry → Bool) :
    (fuel : Nat) → (ofs : Int) → DirEntry → Kernel (Bool × Int × DirEntry)
  | 0, ofs, e => return (false, ofs, e)
  | fuel + 1, ofs, e => do
    let (whole, e) ← readEntry dir ofs e
    if !whole then return (false, ofs, e)
    else if stop e then return (true, ofs, e)
    else scanEntries dir stop fuel (ofs + dirEntrySize) e

/-- `scanEntries` with more rounds than the directory has entries. -/
def scanDir (dir : Dir) (stop : DirEntry → Bool) (ofs : Int) (e : DirEntry) :
    Kernel (Bool × Int × DirEntry) := do
  let i ← deref dir.inode
  scanEntries dir stop ((inodeLength i).toNat + 1) ofs e

/-! ## Opening and closing -/

/-- `dir_open`. -/
def dirOpen (inode : Option Addr) : Kernel (Option Dir) := do
  let memory ← malloc
  match inode, memory with
  | some inode, true => return some { inode, pos := dirEntrySize }
  | _, _ =>
    inodeClose inode
    return none

/-- `dir_open_root`. -/
def dirOpenRoot : Kernel (Option Dir) := do
  dirOpen (← inodeOpen rootDirSector)

/-- `dir_reopen`. -/
def dirReopen (dir : Dir) : Kernel (Option Dir) := do
  dirOpen (some (← inodeReopen dir.inode))

/-- `dir_close`. -/
def dirClose : (dir : Option Dir) → Kernel Unit
  | none => return ()
  | some dir => inodeClose (some dir.inode)

/-- `dir_create`. -/
def dirCreate (sector entryCnt : Nat) : Kernel Bool := do
  if ← inodeCreate sector (entryCnt * dirEntrySize : Nat) true then
    match ← dirOpen (← inodeOpen sector) with
    | none => return false
    | some dir =>
      let e ← uninitialised
      let success ← writeEntry dir.inode 0 (e.setInodeSector sector)
      dirClose (some dir)
      return success
  else return false

/-! ## Searching -/

/-- `lookup`. -/
def lookup (dir : Dir) (name : CString) : Kernel (Option (DirEntry × Int)) := do
  let e ← uninitialised
  let (found, ofs, e) ← scanDir dir (fun e => e.inUse && e.name == name.bytes) dirEntrySize e
  return if found then some (e, ofs) else none

/-- `dir_is_empty`. -/
def dirIsEmpty (dir : Dir) : Kernel Bool := do
  let e ← uninitialised
  let (found, _, _) ← scanDir dir (·.inUse) dirEntrySize e
  return !found

/-- `dir_lookup`, with `none` for a null pointer. -/
def dirLookup (dir : Dir) (name : CString) : Kernel (Option Addr) :=
  if name = dot then some <$> inodeReopen dir.inode
  else if name = dotDot then do
    let (_, e) ← readEntry dir 0 (← uninitialised)
    inodeOpen e.inodeSector
  else do
    match ← lookup dir name with
    | some (e, _) => inodeOpen e.inodeSector
    | none => return none

/-- Whether an open inode is not a directory. -/
def isFile (inode : Addr) (s : Fs) : Bool := (s.inode? inode).any fun i => !isDir i.data

/-- The walk of `dir_open_path` over the tokens. Whether it comes to directories only is not
checked. -/
def walk : List CString → Dir → Kernel (Option Dir)
  | [], curr => do
    recordIf (isFile curr.inode) .fileWalked
    return some curr
  | token :: rest, curr => do
    recordIf (isFile curr.inode) .fileWalked
    match ← dirLookup curr token with
    | none =>
      dirClose (some curr)
      return none
    | some inode =>
      match ← dirOpen (some inode) with
      | none =>
        dirClose (some curr)
        return none
      | some next =>
        dirClose (some curr)
        walk rest next

/-- The `cwd` of the running thread. -/
def Fs.cwd (s : Fs) : Option Dir := (s.cwds.find? (·.1 == s.current)).map (·.2)

/-- The directory where `dir_open_path` starts. -/
def startDir (path : CString) : Kernel (Option Dir) :=
  if path.bytes.head? = some slash then dirOpenRoot
  else do
    match ← gets (·.cwd) with
    | none => dirOpenRoot
    | some cwd => dirReopen cwd

/-- `dir_open_path`. Where the first directory cannot be opened, `dir_lookup` fails its
assertion, or without a token the null pointer is dereferenced. -/
def dirOpenPath (path : CString) : Kernel (Option Dir) := do
  mallocUnchecked
  match ← startDir path with
  | none => fail (if tokens path = [] then .nullDeref else .assertion)
  | some curr =>
    match ← walk (tokens path) curr with
    | none => return none
    | some curr =>
      let i ← deref curr.inode
      if i.removed then
        dirClose (some curr)
        return none
      else return some curr

/-- `dir_readdir`. Returns the name that was found, and the directory with its new position. -/
def dirReaddir (dir : Dir) : Kernel (Option (List UInt8) × Dir) := do
  let (found, ofs, e) ← scanDir dir (·.inUse) dir.pos (← uninitialised)
  return if found then (some (e.name.take nameMax), { dir with pos := ofs + dirEntrySize })
    else (none, { dir with pos := ofs })

/-! ## Adding and removing -/

/-- The first step of `dir_add` for a directory: entry 0 of the new directory is written
from `e`, with the sector of `dir`. Returns `e`, or `none` if that fails. -/
def dirAddParent (dir : Dir) (inodeSector : Nat) (e : DirEntry) : Kernel (Option DirEntry) := do
  match ← dirOpen (← inodeOpen inodeSector) with
  | none => return none
  | some child =>
    let i ← deref dir.inode
    let e := e.setInodeSector i.sector
    let written ← writeEntry child.inode 0 e
    dirClose (some child)
    return if written then some e else none

/-- `dir_add`. -/
def dirAdd (dir : Dir) (name : CString) (inodeSector : Nat) (dirFlag : Bool) : Kernel Bool :=
  if name.length = 0 ∨ nameMax < name.length then return false
  else do
    match ← lookup dir name with
    | some _ => return false
    | none =>
      let e ← uninitialised
      match ← (if dirFlag then dirAddParent dir inodeSector e else pure (some e)) with
      | none => return false
      | some e =>
        let (_, ofs, e) ← scanDir dir (fun e => !e.inUse) 0 e
        writeEntry dir.inode ofs (((e.setInUse true).setName name).setInodeSector inodeSector)

/-- `dir_remove`. A directory is closed by `dir_close (target)` and again at the end. -/
def dirRemove (dir : Dir) (name : CString) : Kernel Bool := do
  match ← lookup dir name with
  | none => return false
  | some (e, ofs) =>
    match ← inodeOpen e.inodeSector with
    | none => return false
    | some inode =>
      let i ← deref inode
      let removable ← (if isDir i.data then do
          record .dirRemoved
          match ← dirOpen (some inode) with
          | none => fail .nullDeref
          | some target =>
            let isEmpty ← dirIsEmpty target
            dirClose (some target)
            return isEmpty
        else pure true)
      let success ← (if removable then writeEntry dir.inode ofs (e.setInUse false) else pure false)
      (if success then inodeRemove inode else pure ())
      inodeClose (some inode)
      return success

end Pintos.Filesys

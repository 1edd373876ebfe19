import Pintos.Properties.ExitReleases
import Pintos.Properties.References
import Pintos.Userprog.Descriptors
import Mathlib.Algebra.Ring.Int.Defs

/-!
# The descriptors of a process, over its calls

A descriptor is in the table from the `open` that returned it to the `close` of it, with the inode
it was opened on. `close` looks for files only, so the descriptor of a directory stays.
-/

namespace Pintos.Process

open Pintos.Lib Pintos.Logic Pintos.Logic.Exec Pintos.Filesys

/-! ## References that are accounted for -/

/-- Each of the handles `hs` keeps its inode open. There may be others. -/
def Covers (hs : List Addr) (s : Fs) : Prop := ∃ rest, Counted (hs ++ rest) s

section

variable {α : Type} {hs : List Addr} {s : Fs}

theorem Covers.congr (h : Covers hs s) {s' : Fs} (hi : s'.openInodes = s.openInodes)
    (hn : s'.nextAddr = s.nextAddr) : Covers hs s' := by
  obtain ⟨rest, hc⟩ := h
  exact ⟨rest, hc.congr (by rw [hi]) hn⟩

theorem Covers.perm (h : Covers hs s) {hs' : List Addr} (hp : hs.Perm hs') : Covers hs' s := by
  obtain ⟨rest, hc⟩ := h
  exact ⟨rest, hc.perm (hp.append_right rest)⟩

/-- A handle that is forgotten stays open. -/
theorem Covers.forget {a : Addr} (h : Covers (a :: hs) s) : Covers hs s := by
  obtain ⟨rest, hc⟩ := h
  exact ⟨a :: rest, hc.perm List.perm_middle.symm⟩

theorem Covers.opened (h : Covers hs s) {a : Addr} (ha : a ∈ hs) : (s.inode? a).isSome := by
  obtain ⟨rest, hc⟩ := h
  obtain ⟨i, hi⟩ := inode?_of_counted hc (List.mem_append_left rest ha)
  rw [hi]
  rfl

theorem held_none (h : Counted hs s) : Held none hs s where
  counted := h
  freeMapFile _ hw := absurd hw (Option.not_mem_none _)
  cwd _ hw := absurd hw (Option.not_mem_none _)
  unmarked _ hw := absurd hw (Option.not_mem_none _)

/-- Where pointers may dangle, nothing need be known of an address. -/
theorem known_none (a : Addr) : Known none hs a := fun h => nomatch h

/-- What the accounts say of code, whatever happened before. -/
theorem covers_of_accounts {x : Kernel α} {hs' : α → List Addr}
    (hx : ∀ rest, Accounts [] none (hs ++ rest) x fun a => hs' a ++ rest) (h : Covers hs s) :
    x.wp (fun e => e.fault ≠ .doubleClose) (fun a s' => Covers (hs' a) s') s := by
  obtain ⟨rest, hc⟩ := h
  exact wp_mono ((hx rest).always (held_none hc)) (fun _ he => he.1)
    fun _ _ h' => ⟨rest, h'.counted⟩

/-- The same of code that is given the references `given` and leaves `hs'`, beside what else is
counted on. -/
theorem covers_of_frame {x : Kernel α} (given : List Addr) (hs' : α → List Addr)
    (hx : ∀ rest, Accounts [] none (given ++ rest) x fun a => hs' a ++ rest)
    (h : Covers (given ++ hs) s) :
    x.wp (fun e => e.fault ≠ .doubleClose) (fun a s' => Covers (hs' a ++ hs) s') s := by
  refine covers_of_accounts (fun rest => ?_) h
  simp only [List.append_assoc]
  exact hx (hs ++ rest)

/-- Code that opens and closes nothing. -/
abbrev OpensNothing (x : Kernel α) : Prop :=
  ∀ (R : Fs → Fs → Prop) (F : Fs → Stop → Prop), Filesys.Quiet R F → (∀ a, Derefs F a) →
    Steps R F x

theorem deref_opensNothing (a : Addr) : OpensNothing (deref a) :=
  fun _ _ q d => deref_steps q.toReading (d a)

theorem covers_quiet {x : Kernel α} (hx : OpensNothing x) (h : Covers hs s) :
    x.wp (fun e => e.fault ≠ .doubleClose) (fun _ s' => Covers hs s') s :=
  covers_of_accounts (fun _ => Accounts.of_quiet fun R F q d =>
    hx R F q fun a => d a (known_none a)) h

theorem inodeReopen_covers (a : Addr) (h : Covers hs s) :
    (inodeReopen a).wp (fun e => e.fault ≠ .doubleClose) (fun b s' => Covers (b :: hs) s') s :=
  covers_of_accounts (fun _ => inodeReopen_accounts (known_none a)) h

theorem dirOpen_covers (a : Addr) (h : Covers (a :: hs) s) :
    (dirOpen (some a)).wp (fun e => e.fault ≠ .doubleClose)
      (fun d s' => Covers (handle (d.map (·.inode)) ++ hs) s') s :=
  covers_of_frame [a] _ (fun _ => dirOpen_accounts (some a)) h

theorem fileOpen_covers (a : Addr) (h : Covers (a :: hs) s) :
    (fileOpen (some a)).wp (fun e => e.fault ≠ .doubleClose)
      (fun f s' => Covers (handle (f.map (·.inode)) ++ hs) s') s :=
  covers_of_frame [a] _ (fun _ => fileOpen_accounts (some a)) h

theorem dirOpenPath_covers (path : CString) (h : Covers hs s) :
    (dirOpenPath path).wp (fun e => e.fault ≠ .doubleClose)
      (fun d s' => Covers (handle (d.map (·.inode)) ++ hs) s') s :=
  covers_of_frame [] _ (fun _ =>
    dirOpenPath_accounts (fun _ hw => absurd hw (Option.not_mem_none _)) path) h

theorem dirLookup_covers (d : Dir) (name : CString) (h : Covers hs s) :
    (dirLookup d name).wp (fun e => e.fault ≠ .doubleClose)
      (fun r s' => Covers (handle r ++ hs) s') s :=
  covers_of_frame [] _ (fun _ => dirLookup_accounts (known_none _) name) h

theorem dirClose_covers (d : Option Dir) (h : Covers (handle (d.map (·.inode)) ++ hs) s) :
    (dirClose d).wp (fun e => e.fault ≠ .doubleClose) (fun _ s' => Covers hs s') s :=
  covers_of_frame (handle (d.map (·.inode))) (fun _ => []) (fun _ => dirClose_accounts d) h

/-- `filesys_open` leaves a removed inode open, and otherwise what it returns. -/
theorem filesysOpen_covers (name : CString) (h : Covers hs s) :
    (filesysOpen name).wp (fun e => e.fault ≠ .doubleClose)
      (fun f s' => Covers (handle (f.map (·.inode)) ++ hs) s') s := by
  unfold filesysOpen
  split
  · exact h
  · rw [wp_bind]
    refine wp_mono (covers_quiet (fun _ _ q _ => resolve_steps q.toReading name) h)
      (fun _ he => he) fun r s₁ h₁ => ?_
    rw [wp_bind]
    refine wp_mono (dirOpenPath_covers r.1 h₁) (fun _ he => he) fun d s₂ h₂ => ?_
    cases d with
    | none => exact h₂
    | some d =>
      rw [wp_bind]
      have hfound : (if 0 < r.2.length then do
          let inode ← dirLookup d r.2
          dirClose (some d)
          return inode
        else pure (some d.inode) : Kernel (Option Addr)).wp (fun e => e.fault ≠ .doubleClose)
          (fun r s' => Covers (handle r ++ hs) s') s₂ := by
        split
        · rw [wp_bind]
          refine wp_mono (dirLookup_covers d r.2 h₂) (fun _ he => he) fun r s₃ h₃ => ?_
          rw [wp_bind]
          have hp : (handle r ++ (handle ((some d).map (·.inode)) ++ hs)).Perm
              (handle ((some d).map (·.inode)) ++ (handle r ++ hs)) := List.perm_middle
          exact dirClose_covers (some d) (h₃.perm hp)
        · exact h₂
      refine wp_mono hfound (fun _ he => he) fun r s₃ h₃ => ?_
      cases r with
      | none => exact h₃
      | some inode =>
        dsimp only
        rw [wp_bind]
        refine wp_mono (covers_quiet (deref_opensNothing inode) h₃)
          (fun _ he => he) fun i s₄ h₄ => ?_
        split
        · exact (h₄.forget).congr rfl rfl
        · exact fileOpen_covers inode h₄

end

/-! ## The table -/

section

variable {s s' : Descriptors} {d : FileDescriptor} {l : List FileDescriptor} {fd : Int}
  {searchdir : Nat}

/-- The handles that the descriptors are. -/
def Descriptors.handles (s : Descriptors) : List Addr := s.fdList.flatMap FileDescriptor.handles

/-- What a call must not change in a descriptor. -/
def FileDescriptor.key (d : FileDescriptor) : Int × Addr × Bool × Option Addr :=
  (d.fd, d.file.inode, d.file.denyWrite, d.dir.map (·.inode))

/-- The descriptors stay, with the inodes they are for. -/
structure SameTable (s s' : Descriptors) : Prop where
  keys : s'.fdList.map FileDescriptor.key = s.fdList.map FileDescriptor.key
  fileNum : s'.fileNum = s.fileNum

theorem SameTable.refl (s : Descriptors) : SameTable s s := ⟨rfl, rfl⟩

theorem SameTable.trans {s'' : Descriptors} (h : SameTable s s') (h' : SameTable s' s'') :
    SameTable s s'' :=
  ⟨h'.keys.trans h.keys, h'.fileNum.trans h.fileNum⟩

theorem handles_eq (l : List FileDescriptor) : l.flatMap FileDescriptor.handles =
    (l.map FileDescriptor.key).flatMap fun k => k.2.1 :: k.2.2.2.toList := by
  rw [List.flatMap_map]
  rfl

theorem SameTable.handles (h : SameTable s s') : s'.handles = s.handles := by
  rw [Descriptors.handles, Descriptors.handles, handles_eq, handles_eq, h.keys]

theorem SameTable.fds (h : SameTable s s') : s'.fdList.map (·.fd) = s.fdList.map (·.fd) := by
  have hk := congrArg (List.map Prod.fst) h.keys
  rwa [List.map_map, List.map_map] at hk

theorem SameTable.kept (h : SameTable s s') (hd : d ∈ s.fdList) :
    ∃ d' ∈ s'.fdList, d'.key = d.key := by
  have hk := List.mem_map_of_mem (f := FileDescriptor.key) hd
  rw [← h.keys] at hk
  obtain ⟨d', hd', he⟩ := List.mem_map.mp hk
  exact ⟨d', hd', he⟩

theorem matches_fd (h : d.matches fd searchdir = true) : d.fd = fd := by
  simp only [FileDescriptor.matches, Bool.and_eq_true, beq_iff_eq] at h
  exact h.1

theorem matches_any (d : FileDescriptor) : d.matches d.fd 2 = true := by
  simp [FileDescriptor.matches]

theorem matches_file : d.matches fd 0 = true ↔ d.fd = fd ∧ d.dir = none := by
  simp [FileDescriptor.matches]

/-- A number that no descriptor has is not resolved. -/
theorem getfile_none (h : fd ∉ l.map (·.fd)) (searchdir : Nat) : getfile l fd searchdir = none := by
  rw [getfile, List.find?_eq_none]
  exact fun d hd hm => h (List.mem_map.mpr ⟨d, hd, matches_fd hm⟩)

/-- The descriptors have numbers of their own, so a number is resolved to its descriptor. -/
theorem getfile_some (hn : (l.map (·.fd)).Nodup) (hd : d ∈ l)
    (hm : d.matches fd searchdir = true) : getfile l fd searchdir = some d := by
  cases hg : getfile l fd searchdir with
  | none => exact absurd hm (List.find?_eq_none.mp hg d hd)
  | some d' =>
    have hfd' : d'.fd = d.fd := (matches_fd (List.find?_some hg)).trans (matches_fd hm).symm
    rw [List.inj_on_of_nodup_map hn (List.mem_of_find?_eq_some hg) hd hfd']

theorem key_modify {f : FileDescriptor → FileDescriptor} (hg : getfile l fd searchdir = some d)
    (hf : (f d).key = d.key) :
    (l.modify (l.findIdx (·.matches fd searchdir)) f).map FileDescriptor.key =
      l.map FileDescriptor.key := by
  induction l with
  | nil => rfl
  | cons e l ih =>
    rw [getfile, List.find?_cons] at hg
    rw [List.findIdx_cons]
    cases he : e.matches fd searchdir with
    | true =>
      rw [he] at hg
      cases hg
      simp [hf]
    | false =>
      rw [he] at hg
      simp only [cond_false, List.modify_succ_cons, List.map_cons, ih hg]

/-! ## Calls that leave the table alone -/

/-- The table stays, and the handles are still accounted for. -/
structure Keeps (s s' : Descriptors) : Prop where
  table : SameTable s s'
  covers : Covers s.handles s.fs → Covers s'.handles s'.fs

theorem Keeps.refl (s : Descriptors) : Keeps s s := ⟨.refl s, id⟩

theorem Keeps.trans {s'' : Descriptors} (h : Keeps s s') (h' : Keeps s' s'') : Keeps s s'' :=
  ⟨h.table.trans h'.table, fun hc => h'.covers (h.covers hc)⟩

@[simp] theorem wp_inCall {α : Type} (x : Kernel α) {E : Stop → Prop}
    {Q : α → Descriptors → Prop} :
    (inCall x).wp E Q s ↔ x.wp E (fun a fs => Q a { s with fs }) s.fs := by
  unfold wp inCall
  cases x s.fs <;> rfl

theorem inCall_keeps {α : Type} {x : Kernel α} (s : Descriptors) (hx : OpensNothing x) :
    (inCall x).wp (fun _ => True) (fun _ s' => Keeps s s' ∧ s'.fdList = s.fdList) s := by
  rw [wp_inCall]
  by_cases hc : Covers s.handles s.fs
  · exact wp_mono (covers_quiet hx hc) (fun _ _ => trivial)
      fun _ _ h => ⟨⟨⟨rfl, rfl⟩, fun _ => h⟩, rfl⟩
  · unfold wp
    cases x s.fs with
    | ok r => exact ⟨⟨⟨rfl, rfl⟩, fun h => absurd h hc⟩, rfl⟩
    | error e => trivial

/-- Code that reads or writes at a descriptor, and the store of its new position. -/
theorem atDescriptor_keeps {α : Type} {x : Kernel α} {P : α → Prop}
    {f : α → FileDescriptor → FileDescriptor} (hg : getfile s.fdList fd searchdir = some d)
    (hx : OpensNothing x) (hP : Returns x P) (hf : ∀ a, P a → (f a d).key = d.key) :
    (inCall x).wp (fun _ => True) (fun a s' => Keeps s { s' with
      fdList := s'.fdList.modify (s'.fdList.findIdx (·.matches fd searchdir)) (f a) }) s := by
  have hr : (inCall x).wp (fun _ => True) (fun a _ => P a) s := (wp_inCall x).mpr (hP s.fs)
  refine wp_mono (wp_and (inCall_keeps s hx) hr) (fun _ _ => trivial) fun a s₁ h => ?_
  obtain ⟨⟨hk, hl⟩, ha⟩ := h
  have hg₁ : getfile s₁.fdList fd searchdir = some d := hl ▸ hg
  have ht : SameTable s₁ { s₁ with
      fdList := s₁.fdList.modify (s₁.fdList.findIdx (·.matches fd searchdir)) (f a) } :=
    ⟨key_modify hg₁ (hf a ha), rfl⟩
  refine hk.trans ⟨ht, fun hc => ?_⟩
  show Covers (Descriptors.handles _) s₁.fs
  rw [ht.handles]
  exact hc

theorem fileRead_returns (file : File) (size : Int) :
    Returns (fileRead file size) fun r =>
      r.2.inode = file.inode ∧ r.2.denyWrite = file.denyWrite :=
  Returns.bind fun _ => Returns.pure ⟨rfl, rfl⟩

theorem fileWrite_returns (file : File) (buffer : Nat → UInt8) (size : Int) :
    Returns (fileWrite file buffer size) fun r =>
      r.2.inode = file.inode ∧ r.2.denyWrite = file.denyWrite :=
  Returns.bind fun _ => Returns.pure ⟨rfl, rfl⟩

theorem fileSeek_returns (file : File) (newPos : Int) :
    Returns (fileSeek file newPos) fun f =>
      f.inode = file.inode ∧ f.denyWrite = file.denyWrite := by
  unfold fileSeek
  split
  · exact Returns.pure ⟨rfl, rfl⟩
  · exact fun _ => trivial

theorem dirReaddir_returns (dir : Dir) :
    Returns (dirReaddir dir) fun r => r.2.inode = dir.inode := by
  refine Returns.bind fun e => Returns.bind fun r => ?_
  dsimp only
  split <;> exact Returns.pure rfl

theorem FileDescriptor.key_file {file : File} (h : file.inode = d.file.inode ∧
    file.denyWrite = d.file.denyWrite) : ({ d with file } : FileDescriptor).key = d.key := by
  rw [FileDescriptor.key, h.1, h.2]
  rfl

theorem read_keeps (fd : Int) (length : Nat) (s : Descriptors) :
    (Process.read fd length).wp (fun _ => True) (fun _ s' => Keeps s s') s := by
  simp only [Process.read]
  split
  · exact .refl s
  · simp only [wp_bind, wp_gets]
    split
    · exact .refl s
    · cases hg : getfile s.fdList fd 0 with
      | none => exact .refl s
      | some d =>
        have hx : OpensNothing (fileRead d.file (wrap32 length)) := fun _ _ q h =>
          q.bind (inodeReadAt_steps q.toReading (h _) _ _) fun _ => q.pure _
        dsimp only
        rw [wp_bind]
        exact wp_mono (atDescriptor_keeps (f := fun (r : List UInt8 × File) d =>
          { d with file := r.2 }) hg hx (fileRead_returns d.file _) fun _ h =>
          FileDescriptor.key_file h) (fun _ _ => trivial) fun _ _ h => h

theorem write_keeps (fd : Int) (buffer : Nat → UInt8) (length : Nat) (s : Descriptors) :
    (Process.write fd buffer length).wp (fun _ => True) (fun _ s' => Keeps s s') s := by
  simp only [Process.write]
  split
  · exact .refl s
  · split
    · exact .refl s
    · simp only [wp_bind, wp_gets]
      cases hg : getfile s.fdList fd 0 with
      | none => exact .refl s
      | some d =>
        have hx : OpensNothing (fileWrite d.file buffer (wrap32 length)) := fun _ _ q h =>
          q.bind (inodeWriteAt_steps q (h _) _ _ _) fun _ => q.pure _
        dsimp only
        rw [wp_bind]
        exact wp_mono (atDescriptor_keeps (f := fun (r : Int × File) d =>
          { d with file := r.2 }) hg hx (fileWrite_returns d.file _ _) fun _ h =>
          FileDescriptor.key_file h) (fun _ _ => trivial) fun _ _ h => h

theorem seek_keeps (fd : Int) (position : Nat) (s : Descriptors) :
    (Process.seek fd position).wp (fun _ => True) (fun _ s' => Keeps s s') s := by
  simp only [Process.seek, wp_bind, wp_gets]
  cases hg : getfile s.fdList fd 0 with
  | none => exact .refl s
  | some d =>
    have hx : OpensNothing (fileSeek d.file (wrap32 position)) := fun _ _ q _ =>
      Steps.ite (q.pure _) (q.fail (by decide))
    dsimp only
    rw [wp_bind]
    exact wp_mono (atDescriptor_keeps (f := fun f d => { d with file := f }) hg hx
      (fileSeek_returns d.file _) fun _ h => FileDescriptor.key_file h)
      (fun _ _ => trivial) fun _ _ h => h

theorem readdir_keeps (fd : Int) (s : Descriptors) :
    (Process.readdir fd).wp (fun _ => True) (fun _ s' => Keeps s s') s := by
  simp only [Process.readdir, wp_bind, wp_gets]
  cases hg : getfile s.fdList fd 1 with
  | none => exact .refl s
  | some d =>
    have hderef := inCall_keeps s (deref_opensNothing d.file.inode)
    dsimp only
    rw [wp_bind]
    refine wp_mono hderef (fun _ _ => trivial) fun i s₁ hkept => ?_
    obtain ⟨hk, hl⟩ := hkept
    split
    · exact hk
    · cases hdir : d.dir with
      | none => trivial
      | some dir =>
        have hg₁ : getfile s₁.fdList fd 1 = some d := hl ▸ hg
        simp only [setDescriptor, wp_bind, wp_modify, wp_pure]
        refine wp_mono (atDescriptor_keeps (f := fun r d => { d with dir := some r.2 }) hg₁
          (fun _ _ q h => dirReaddir_steps q.toReading (h dir.inode)) (dirReaddir_returns dir)
          fun r h => ?_) (fun _ _ => trivial) fun _ _ h => hk.trans h
        rw [FileDescriptor.key, FileDescriptor.key, hdir, Option.map_some, Option.map_some, h]

/-- A call other than `close` keeps the table. -/
theorem serve_keeps (c : DescriptorCall) (hc : ∀ fd, c ≠ .close fd) (s : Descriptors) :
    c.serve.wp (fun _ => True) (fun _ s' => Keeps s s') s := by
  have hread : ∀ a, (inCall (deref a)).wp (fun _ => True) (fun _ s' => Keeps s s') s := fun a =>
    wp_mono (inCall_keeps s (deref_opensNothing a)) (fun _ _ => trivial)
      fun _ _ h => h.1
  cases c with
  | close fd => exact absurd rfl (hc fd)
  | filesize fd =>
    simp only [DescriptorCall.serve, Process.filesize, wp_bind, wp_gets]
    cases getfile s.fdList fd 0 with
    | none => exact .refl s
    | some d =>
      exact wp_mono (inCall_keeps s fun _ _ q h => q.bind (deref_steps q.toReading (h _)) fun _ =>
        q.pure _) (fun _ _ => trivial) fun _ _ h => h.1
  | read fd length => exact (wp_bind ..).mpr (read_keeps fd length s)
  | write fd buffer length => exact (wp_bind ..).mpr (write_keeps fd buffer length s)
  | seek fd position => exact seek_keeps fd position s
  | tell fd =>
    simp only [DescriptorCall.serve, Process.tell, wp_bind, wp_gets]
    cases getfile s.fdList fd 0 <;> exact .refl s
  | readdir fd => exact (wp_bind ..).mpr (readdir_keeps fd s)
  | isdir fd =>
    simp only [DescriptorCall.serve, Process.isdir, wp_bind, wp_gets]
    cases getfile s.fdList fd 2 with
    | none => trivial
    | some d =>
      dsimp only
      rw [wp_bind]
      exact hread d.file.inode
  | inumber fd =>
    simp only [DescriptorCall.serve, Process.inumber, wp_bind, wp_gets]
    cases getfile s.fdList fd 2 with
    | none => trivial
    | some d =>
      dsimp only
      rw [wp_bind]
      exact hread d.file.inode

/-! ## `open` -/

/-- `open` has returned `fd`: it has failed, or it has added one descriptor, for the file that
`filesys_open` gave, under the next number. -/
inductive Opened (s s' : Descriptors) : Int → Prop
  | failed (hl : s'.fdList = s.fdList) (hn : s'.fileNum = s.fileNum) : Opened s s' (-1)
  | added (d : FileDescriptor) (hfd : d.fd = s.fileNum) (hl : s'.fdList = s.fdList ++ [d])
    (hn : s'.fileNum = wrap32 (s.fileNum + 1)) (hw : d.file.denyWrite = false) :
    Opened s s' s.fileNum

theorem handles_append (s : Descriptors) (d : FileDescriptor) :
    (s.fdList ++ [d]).flatMap FileDescriptor.handles = s.handles ++ d.handles := by
  simp [Descriptors.handles]

/-- The allocation of the `struct dir` of a descriptor. -/
theorem openDir_covers {hs : List Addr} (f : File) (i : Inode) {fs : Fs}
    (h : Covers (f.inode :: hs) fs) :
    (if isDir i.data then (do dirOpen (some (← inodeReopen f.inode))) else pure none :
      Kernel (Option Dir)).wp (fun _ => True)
        (fun dir fs' => Covers (f.inode :: ((dir.map (·.inode)).toList ++ hs)) fs') fs := by
  split
  · rw [wp_bind]
    refine wp_mono (inodeReopen_covers f.inode h) (fun _ _ => trivial) fun a fs₁ h₁ => ?_
    refine wp_mono (dirOpen_covers a h₁) (fun _ _ => trivial) fun dir fs₂ h₂ => ?_
    exact h₂.perm List.perm_middle
  · exact h

theorem openFile_opened (file : CString) (s : Descriptors) (hc : Covers s.handles s.fs) :
    (openFile file).wp (fun _ => True)
      (fun fd s' => Opened s s' fd ∧ Covers s'.handles s'.fs) s := by
  unfold openFile
  rw [wp_bind, wp_inCall]
  refine wp_mono (covers_quiet (fun _ _ q _ => malloc_steps q.toReading) hc) (fun _ _ => trivial)
    fun memory fs₁ h₁ => ?_
  rw [wp_bind, wp_inCall]
  refine wp_mono (wp_and (filesysOpen_covers file h₁) (filesysOpen_writable file fs₁))
    (fun _ _ => trivial) fun f fs₂ h₂ => ?_
  obtain ⟨h₂, hw⟩ := h₂
  cases f with
  | none => exact ⟨.failed rfl rfl, h₂⟩
  | some f =>
    dsimp only
    rw [wp_bind]
    cases memory with
    | false => trivial
    | true =>
      rw [if_pos rfl, wp_pure]
      simp only [wp_bind, wp_gets, wp_modify, wp_inCall]
      refine wp_mono (covers_quiet (deref_opensNothing f.inode) h₂)
        (fun _ _ => trivial) fun i fs₃ h₃ => ?_
      have hdir := openDir_covers f i h₃
      split at hdir
      · next hi =>
        rw [if_pos hi, wp_inCall]
        refine wp_mono hdir (fun _ _ => trivial) fun dir fs₄ h₄ => ?_
        refine ⟨.added ⟨s.fileNum, f, dir⟩ rfl rfl rfl (hw f rfl), ?_⟩
        show Covers ((s.fdList ++ [_]).flatMap FileDescriptor.handles) _
        rw [handles_append]
        have hp : (f.inode :: ((dir.map (·.inode)).toList ++ s.handles)).Perm
            (s.handles ++ f.inode :: (dir.map (·.inode)).toList) :=
          @List.perm_append_comm _ (f.inode :: _) s.handles
        exact h₄.perm hp
      · next hi =>
        rw [if_neg hi]
        refine ⟨.added ⟨s.fileNum, f, none⟩ rfl rfl rfl (hw f rfl), ?_⟩
        show Covers ((s.fdList ++ [_]).flatMap FileDescriptor.handles) _
        rw [handles_append]
        have hp : (f.inode :: s.handles).Perm (s.handles ++ [f.inode]) :=
          (List.perm_append_singleton f.inode s.handles).symm
        exact h₃.perm hp

/-! ## `close` -/

/-- The descriptor `d` is closed: it is in no place of the table any more, the references that it was
are given back, and nothing else changes. -/
structure Closed (s : Descriptors) (d : FileDescriptor) (s' : Descriptors) : Prop where
  rest : s'.fdList = s.fdList.filter (·.fd != d.fd)
  fileNum : s'.fileNum = s.fileNum
  unresolved : ∀ searchdir, getfile s'.fdList d.fd searchdir = none
  counts : ∀ a ∈ d.handles, ∃ n, (tally s.fs a).map (·.1) = some n ∧
    (tally s'.fs a).map (·.1) = lowered n (d.handles.count a)
  others : ∀ a ∉ d.handles, tally s'.fs a = tally s.fs a

theorem eraseP_eq_filter (hn : (l.map (·.fd)).Nodup) (hd : d ∈ l)
    (hm : d.matches fd searchdir = true) :
    l.eraseP (·.matches fd searchdir) = l.filter (·.fd != fd) := by
  induction l with
  | nil => cases hd
  | cons e l ih =>
    rw [List.map_cons, List.nodup_cons] at hn
    by_cases he : e.matches fd searchdir = true
    · have hrest : l.filter (·.fd != fd) = l := by
        refine List.filter_eq_self.mpr fun d' hd' => ?_
        refine bne_iff_ne.mpr fun hfd => hn.1 (List.mem_map.mpr ⟨d', hd', ?_⟩)
        exact hfd.trans (matches_fd he).symm
      rw [List.eraseP_cons_of_pos he, List.filter_cons_of_neg (by simp [matches_fd he]), hrest]
    · have hmem : d ∈ l := by
        obtain rfl | hmem := List.mem_cons.mp hd
        · exact absurd hm he
        · exact hmem
      have hne : e.fd ≠ fd := fun h =>
        hn.1 (List.mem_map.mpr ⟨d, hmem, (matches_fd hm).trans h.symm⟩)
      rw [List.eraseP_cons_of_neg he, List.filter_cons_of_pos
        (p := fun d : FileDescriptor => d.fd != fd) (bne_iff_ne.mpr hne), ih hn.2 hmem]

theorem not_mem_filter (l : List FileDescriptor) (fd : Int) :
    fd ∉ (l.filter (·.fd != fd)).map (·.fd) := by
  intro h
  obtain ⟨d, hd, hfd⟩ := List.mem_map.mp h
  exact bne_iff_ne.mp (List.mem_filter.mp hd).2 hfd

/-- A number that is no file's changes nothing. -/
theorem close_none (h : getfile s.fdList fd 0 = none) : close fd s = .ok ((), s) := by
  have hgets : (gets (·.fdList) : Exec Descriptors Stop _) s = .ok (s.fdList, s) := rfl
  rw [close, run_bind hgets, h]
  rfl

/-- The handles are those of the descriptor and of the others. -/
theorem handles_perm (hn : (s.fdList.map (·.fd)).Nodup) (hd : d ∈ s.fdList) :
    s.handles.Perm
      (d.handles ++ (s.fdList.filter (·.fd != d.fd)).flatMap FileDescriptor.handles) := by
  have hp : s.fdList.Perm (d :: s.fdList.filter (·.fd != d.fd)) := by
    rw [← eraseP_eq_filter hn hd (matches_any d)]
    obtain ⟨a, l₁, l₂, hl₁, ha, hl, he⟩ := List.exists_of_eraseP hd (matches_any d)
    have had : a = d := by
      have hmem : a ∈ s.fdList := by rw [hl]; simp
      exact List.inj_on_of_nodup_map hn hmem hd (matches_fd ha)
    rw [he, hl, had]
    exact List.perm_middle
  exact hp.flatMap_right _

/-- `close` of a file. -/
theorem close_file (hn : (s.fdList.map (·.fd)).Nodup) (hd : d ∈ s.fdList) (hdir : d.dir = none)
    (hw : d.file.denyWrite = false) (hc : Covers s.handles s.fs) :
    (close d.fd).wp (fun e => e.fault ≠ .doubleClose)
      (fun _ s' => Closed s d s' ∧ Covers s'.handles s'.fs) s := by
  have hm : d.matches d.fd 0 = true := matches_file.mpr ⟨rfl, hdir⟩
  have hh : d.handles = [d.file.inode] := by
    rw [FileDescriptor.handles, hdir]
    rfl
  have hcover : Covers (d.file.inode ::
      (s.fdList.filter (·.fd != d.fd)).flatMap FileDescriptor.handles) s.fs := by
    have hp := hc.perm (handles_perm hn hd)
    rwa [hh] at hp
  unfold close
  rw [wp_bind, wp_gets, getfile_some hn hd hm]
  dsimp only
  rw [hdir, wp_bind, wp_inCall]
  have hclose : (fileClose d.file).wp (fun e => e.fault ≠ .doubleClose) (fun _ fs =>
      Covers ((s.fdList.filter (·.fd != d.fd)).flatMap FileDescriptor.handles) fs) s.fs :=
    covers_of_accounts (fun _ => fileClose_accounts hw) hcover
  have htally : (fileClose d.file).wp (fun _ => True) (fun _ fs =>
      (∃ n k, tally s.fs d.file.inode = some (n, k) ∧
        tally fs d.file.inode = (lowered n 1).map (·, k)) ∧
          ∀ b, b ≠ d.file.inode → tally fs b = tally s.fs b) s.fs := by
    unfold fileClose
    rw [hw]
    exact inodeClose_tally d.file.inode s.fs
  refine wp_mono (wp_and hclose htally) (fun _ he => he.1) fun _ fs h => ?_
  obtain ⟨hcov, ⟨n, k, hold, hnew⟩, hother⟩ := h
  simp only [dirClose, wp_bind, wp_inCall, wp_modify, wp_pure, eraseP_eq_filter hn hd hm]
  refine ⟨⟨rfl, rfl, fun k => getfile_none (not_mem_filter _ _) k, fun a ha => ?_,
    fun a ha => ?_⟩, hcov⟩
  · rw [hh, List.mem_singleton] at ha
    subst ha
    refine ⟨n, by rw [hold]; rfl, ?_⟩
    dsimp only
    rw [hnew, hh, List.count_singleton_self, Option.map_map]
    exact Option.map_id_apply
  · rw [hh, List.mem_singleton] at ha
    exact hother a ha

/-- `inode_close` returns, unless it releases the sectors of a removed inode. -/
theorem inodeClose_returns {fs : Fs} {a : Addr} {i : Inode} (hi : fs.inode? a = some i)
    (hlive : ¬ (i.removed = true ∧ i.openCnt = 1)) :
    (inodeClose (some a)).wp (fun _ => False) (fun _ _ => True) fs := by
  have hd : derefClose a fs = .ok (i, fs) := by
    unfold derefClose
    rw [hi]
  unfold inodeClose
  rw [wp_bind]
  unfold wp
  rw [hd]
  show (if i.openCnt - 1 = 0 then _ else _ : Kernel Unit).wp _ _ _
  split
  · next hz =>
    have hr : ¬ i.removed = true := fun hr => hlive ⟨hr, by omega⟩
    simp only [wp_bind, wp_modify, if_neg hr, wp_pure]
  · trivial

/-- `close` of a file returns, unless it gives back the last reference to a removed inode, whose
sectors are then released. -/
theorem close_returns {i : Inode} (hn : (s.fdList.map (·.fd)).Nodup) (hd : d ∈ s.fdList)
    (hdir : d.dir = none) (hw : d.file.denyWrite = false)
    (hi : s.fs.inode? d.file.inode = some i) (hlive : ¬ (i.removed = true ∧ i.openCnt = 1)) :
    ∃ s', close d.fd s = .ok ((), s') := by
  have hm : d.matches d.fd 0 = true := matches_file.mpr ⟨rfl, hdir⟩
  have hclose : (close d.fd).wp (fun _ => False) (fun _ _ => True) s := by
    unfold close
    rw [wp_bind, wp_gets, getfile_some hn hd hm]
    dsimp only
    rw [hdir, wp_bind, wp_inCall, fileClose, hw, if_neg Bool.false_ne_true, wp_bind, wp_pure]
    exact wp_mono (inodeClose_returns hi hlive) (fun _ h => h) fun _ _ _ => trivial
  obtain ⟨a, s', h, -⟩ := wp_returns hclose
  exact ⟨s', h⟩

end

/-! ## Runs -/

/-- A process with the descriptors that `open` has returned so far. -/
structure Session where
  desc : Descriptors
  returned : List Int

/-- What happens to a process. -/
inductive Act
  | openFile (file : CString)
  | call (c : DescriptorCall)
  /-- Other processes use the file system. What this process has open stays open. -/
  | others

inductive Session.Step (s : Session) : Act → Session → Prop
  | openFile {file fd d} (h : Process.openFile file s.desc = .ok (fd, d)) :
    Step s (.openFile file) ⟨d, if fd = -1 then s.returned else fd :: s.returned⟩
  | call {c d} (h : c.serve s.desc = .ok ((), d)) : Step s (.call c) ⟨d, s.returned⟩
  | others {fs} (h : Covers s.desc.handles fs) : Step s .others ⟨{ s.desc with fs }, s.returned⟩

/-- While `file_num` does not overflow. -/
def Session.Small (s : Session) : Act → Prop
  | .openFile _ => s.returned.length + 2 < 2 ^ 31
  | _ => True

/-- A run of a process, the last call first. -/
inductive Session.Run (s : Session) : List Act → Session → Prop
  | nil : Run s [] s
  | cons {as s' a s''} (h : Run s as s') (ha : s'.Small a) (hs : Step s' a s'') :
    Run s (a :: as) s''

/-- A process that starts, over a file system in use. -/
structure Session.Starts (s : Session) : Prop where
  fdList : s.desc.fdList = []
  fileNum : s.desc.fileNum = 2
  returned : s.returned = []
  counted : ∃ hs, Counted hs s.desc.fs

/-- What holds of the table between two calls. -/
structure Session.Sound (s : Session) : Prop where
  num : s.desc.fileNum = wrap32 (s.returned.length + 2)
  old : ∀ fd ∈ s.returned, 2 ≤ fd ∧ fd < s.returned.length + 2
  listed : ∀ d ∈ s.desc.fdList, d.fd ∈ s.returned
  once : (s.desc.fdList.map (·.fd)).Nodup
  writable : ∀ d ∈ s.desc.fdList, d.file.denyWrite = false
  covers : Covers s.desc.handles s.desc.fs

theorem wrap32_small {n : Int} (h : 0 ≤ n) (h' : n < 2 ^ 31) : wrap32 n = n := by
  unfold wrap32
  omega

namespace Session

variable {s s' s'' : Session} {a : Act} {as : List Act} {fd : Int} {d : FileDescriptor}

theorem Starts.sound (h : s.Starts) : s.Sound where
  num := by
    rw [h.fileNum, h.returned]
    exact (wrap32_small (by decide) (by decide)).symm
  old := by
    rw [h.returned]
    exact fun _ h => nomatch h
  listed := by
    rw [h.fdList]
    exact fun _ h => nomatch h
  once := by
    rw [h.fdList]
    exact List.nodup_nil
  writable := by
    rw [h.fdList]
    exact fun _ h => nomatch h
  covers := by
    obtain ⟨hs, hc⟩ := h.counted
    refine ⟨hs, ?_⟩
    rw [Descriptors.handles, h.fdList]
    exact hc

/-- The number that the next `open` returns. -/
theorem Sound.next (h : s.Sound) (hsmall : s.returned.length + 2 < 2 ^ 31) :
    s.desc.fileNum = s.returned.length + 2 :=
  h.num.trans (wrap32_small (by omega) (by omega))

/-- A descriptor that keeps its key is the same file. -/
theorem Sound.keeps {d' : Descriptors} (h : s.Sound) (hk : Keeps s.desc d') :
    Sound ⟨d', s.returned⟩ where
  num := hk.table.fileNum.trans h.num
  old := h.old
  listed e he := by
    have hmem := List.mem_map_of_mem (f := (·.fd)) he
    rw [hk.table.fds] at hmem
    obtain ⟨e', he', hfd⟩ := List.mem_map.mp hmem
    exact hfd ▸ h.listed e' he'
  once := by
    rw [hk.table.fds]
    exact h.once
  writable e he := by
    have hmem := List.mem_map_of_mem (f := FileDescriptor.key) he
    rw [hk.table.keys] at hmem
    obtain ⟨e', he', hkey⟩ := List.mem_map.mp hmem
    have hw := congrArg (·.2.2.1) hkey
    exact hw.symm.trans (h.writable e' he')
  covers := hk.covers h.covers

theorem Sound.opened {d' : Descriptors} (h : s.Sound)
    (hsmall : s.returned.length + 2 < 2 ^ 31) (ho : Opened s.desc d' fd)
    (hc : Covers d'.handles d'.fs) :
    Sound ⟨d', if fd = -1 then s.returned else fd :: s.returned⟩ := by
  have hnext := h.next hsmall
  cases ho with
  | failed hl hn =>
    rw [if_pos rfl]
    exact ⟨hn.trans h.num, h.old, hl ▸ h.listed, hl ▸ h.once, hl ▸ h.writable, hc⟩
  | added e hfd hl hn hw =>
    have hne : s.desc.fileNum ≠ -1 := by omega
    rw [if_neg hne]
    refine ⟨?_, fun x hx => ?_, fun x hx => ?_, ?_, fun x hx => ?_, hc⟩
    · rw [hn, hnext, List.length_cons]
      congr 1
    · rw [List.length_cons]
      obtain rfl | hx := List.mem_cons.mp hx
      · omega
      · have := h.old x hx
        omega
    · rw [hl] at hx
      obtain hx | hx := List.mem_append.mp hx
      · exact List.mem_cons_of_mem _ (h.listed x hx)
      · rw [List.mem_singleton.mp hx, hfd]
        exact List.mem_cons_self
    · rw [hl, List.map_append]
      refine List.Nodup.append h.once (List.nodup_singleton _) ?_
      intro x hx hx'
      rw [List.map_singleton, List.mem_singleton, hfd] at hx'
      obtain ⟨e', he', rfl⟩ := List.mem_map.mp hx
      have := h.old _ (h.listed e' he')
      omega
    · rw [hl] at hx
      obtain hx | hx := List.mem_append.mp hx
      · exact h.writable x hx
      · rw [List.mem_singleton.mp hx]
        exact hw

/-- A call of `close` that closes something closes a file. -/
theorem Sound.close_cases {d' : Descriptors} (h : s.Sound)
    (hc : close fd s.desc = .ok ((), d')) :
    d' = s.desc ∨ ∃ d ∈ s.desc.fdList, d.fd = fd ∧ d.dir = none ∧ Closed s.desc d d' ∧
      Covers d'.handles d'.fs := by
  cases hg : getfile s.desc.fdList fd 0 with
  | none =>
    rw [close_none hg] at hc
    cases hc
    exact .inl rfl
  | some d =>
    have hd : d ∈ s.desc.fdList := List.mem_of_find?_eq_some hg
    obtain ⟨hfd, hdir⟩ := matches_file.mp (List.find?_some hg)
    subst hfd
    have hclosed := wp_ok (close_file h.once hd hdir (h.writable d hd) h.covers) hc
    exact .inr ⟨d, hd, rfl, hdir, hclosed⟩

theorem Sound.closed {d' : Descriptors} (h : s.Sound) (hc : Closed s.desc d d')
    (hcov : Covers d'.handles d'.fs) : Sound ⟨d', s.returned⟩ where
  num := hc.fileNum.trans h.num
  old := h.old
  listed e he := h.listed e (List.mem_filter.mp (hc.rest ▸ he)).1
  once := by
    rw [hc.rest]
    exact h.once.sublist (List.Sublist.map _ List.filter_sublist)
  writable e he := h.writable e (List.mem_filter.mp (hc.rest ▸ he)).1
  covers := hcov

/-- What one step does to the table. -/
structure Moves (s : Session) (a : Act) (s' : Session) : Prop where
  sound : s'.Sound
  kept : ∀ d ∈ s.desc.fdList, a ≠ .call (.close d.fd) → ∃ d' ∈ s'.desc.fdList, d'.key = d.key
  returned : ∀ fd ∈ s.returned, fd ∈ s'.returned
  new : ∀ fd ∈ s.returned, fd ∉ s.desc.fdList.map (·.fd) → fd ∉ s'.desc.fdList.map (·.fd)

theorem Moves.of_keeps {d' : Descriptors} (h : s.Sound) (hk : Keeps s.desc d') :
    s.Moves a ⟨d', s.returned⟩ where
  sound := h.keeps hk
  kept _ hd _ := hk.table.kept hd
  returned _ h := h
  new fd _ hn := by
    rw [hk.table.fds]
    exact hn

theorem Sound.step (h : s.Sound) (ha : s.Small a) (hs : s.Step a s') : s.Moves a s' := by
  cases hs with
  | @openFile file fd d' ho =>
    obtain ⟨hopened, hcov⟩ := wp_ok (openFile_opened file s.desc h.covers) ho
    have hnext := h.next ha
    refine ⟨h.opened ha hopened hcov, fun d hd _ => ?_, fun x hx => ?_, fun x hx hn => ?_⟩
    · cases hopened with
      | failed hl _ => exact ⟨d, hl ▸ hd, rfl⟩
      | added e _ hl _ _ => exact ⟨d, hl ▸ List.mem_append_left _ hd, rfl⟩
    · dsimp only
      split
      · exact hx
      · exact List.mem_cons_of_mem _ hx
    · dsimp only
      cases hopened with
      | failed hl _ => rwa [hl]
      | added e hfd hl _ _ =>
        have hlt := (h.old x hx).2
        rw [hl, List.map_append, List.mem_append, List.map_singleton, List.mem_singleton, hfd]
        rintro (hmem | rfl)
        · exact hn hmem
        · omega
  | @call c d' hc =>
    by_cases hclose : ∃ fd, c = .close fd
    · obtain ⟨fd, rfl⟩ := hclose
      obtain rfl | ⟨d, hd, rfl, -, hclosed, hcov⟩ := h.close_cases hc
      · exact .of_keeps h (.refl s.desc)
      · refine ⟨h.closed hclosed hcov, fun e he hne => ⟨e, ?_, rfl⟩, fun _ h => h,
          fun x _ hn hmem => hn ?_⟩
        · rw [hclosed.rest]
          refine List.mem_filter.mpr ⟨he, bne_iff_ne.mpr fun hfd => hne ?_⟩
          rw [hfd]
        · dsimp only at hmem
          rw [hclosed.rest] at hmem
          exact (List.Sublist.map _ List.filter_sublist).subset hmem
    · have hkeeps := wp_ok (serve_keeps c (fun fd hfd => hclose ⟨fd, hfd⟩) s.desc) hc
      exact .of_keeps h hkeeps
  | @others fs hcov => exact .of_keeps h ⟨⟨rfl, rfl⟩, fun _ => hcov⟩

theorem Sound.run (h : s.Sound) (hr : s.Run as s') : s'.Sound := by
  induction hr with
  | nil => exact h
  | cons _ ha hs ih => exact (ih.step ha hs).sound

/-- A descriptor stays until it is closed. -/
theorem Sound.kept (h : s.Sound) (hr : s.Run as s') (hd : d ∈ s.desc.fdList)
    (hc : .call (.close d.fd) ∉ as) : ∃ d' ∈ s'.desc.fdList, d'.key = d.key := by
  induction hr with
  | nil => exact ⟨d, hd, rfl⟩
  | @cons as s₁ a s₂ hr ha hs ih =>
    obtain ⟨d₁, hd₁, hkey⟩ := ih fun hm => hc (List.mem_cons_of_mem _ hm)
    have hfd : d₁.fd = d.fd := congrArg (·.1) hkey
    have hne : a ≠ .call (.close d₁.fd) := fun ha => hc (by rw [ha, hfd]; exact List.mem_cons_self)
    obtain ⟨d₂, hd₂, hkey₂⟩ := ((h.run hr).step ha hs).kept d₁ hd₁ hne
    exact ⟨d₂, hd₂, hkey₂.trans hkey⟩

/-- A number that was returned and is in no place of the table stays so. -/
theorem Sound.gone (h : s.Sound) (hr : s.Run as s') (hfd : fd ∈ s.returned)
    (hn : fd ∉ s.desc.fdList.map (·.fd)) :
    fd ∈ s'.returned ∧ fd ∉ s'.desc.fdList.map (·.fd) := by
  induction hr with
  | nil => exact ⟨hfd, hn⟩
  | cons hr ha hs ih =>
    have hm := (h.run hr).step ha hs
    exact ⟨hm.returned fd ih.1, hm.new fd ih.1 ih.2⟩

/-- What a process may rely on between two calls. -/
structure Law (s : Session) : Prop where
  /-- `open` fails and leaves the table alone, or adds a descriptor with a number that was never
  returned before. -/
  opens : ∀ file fd d', s.returned.length + 2 < 2 ^ 31 →
    Process.openFile file s.desc = .ok (fd, d') →
      fd = -1 ∧ d'.fdList = s.desc.fdList ∨
        2 ≤ fd ∧ fd ∉ s.returned ∧ ∃ d, d.fd = fd ∧ d'.fdList = s.desc.fdList ++ [d]
  /-- A number is resolved to its descriptor, whose inode is open. -/
  found : ∀ d ∈ s.desc.fdList, getfile s.desc.fdList d.fd 2 = some d ∧
    ∀ a ∈ d.handles, (s.desc.fs.inode? a).isSome = true
  /-- `close` closes the descriptor if it is a file's, and only then. -/
  closes : ∀ d ∈ s.desc.fdList, ∀ d', close d.fd s.desc = .ok ((), d') →
    (Closed s.desc d d' ↔ d.dir = none)
  /-- It returns, unless it releases the sectors of a removed inode. -/
  returns : ∀ d ∈ s.desc.fdList, d.dir = none → ∀ i, s.desc.fs.inode? d.file.inode = some i →
    ¬ (i.removed = true ∧ i.openCnt = 1) → ∃ d', close d.fd s.desc = .ok ((), d')
  /-- Any other number is ignored. -/
  ignores : ∀ fd ∉ s.desc.fdList.map (·.fd), close fd s.desc = .ok ((), s.desc)

theorem Sound.law (h : s.Sound) : s.Law where
  opens file fd d' hsmall ho := by
    have hnext := h.next hsmall
    obtain ⟨hopened, -⟩ := wp_ok (openFile_opened file s.desc h.covers) ho
    cases hopened with
    | failed hl _ => exact .inl ⟨rfl, hl⟩
    | added e hfd hl _ _ =>
      refine .inr ⟨by omega, fun hmem => ?_, e, hfd, hl⟩
      have := h.old _ hmem
      omega
  found d hd := ⟨getfile_some h.once hd (matches_any d), fun a ha =>
    h.covers.opened (List.mem_flatMap.mpr ⟨d, hd, ha⟩)⟩
  closes d hd d' hc := by
    constructor
    · intro hclosed
      by_contra hdir
      have hg : getfile s.desc.fdList d.fd 0 = none := by
        rw [getfile, List.find?_eq_none]
        intro e he hm
        obtain ⟨hfd, hnone⟩ := matches_file.mp hm
        exact hdir (List.inj_on_of_nodup_map h.once he hd hfd ▸ hnone)
      rw [close_none hg] at hc
      cases hc
      have hfound := getfile_some h.once hd (matches_any d)
      rw [hclosed.unresolved 2] at hfound
      cases hfound
    · intro hdir
      exact (wp_ok (close_file h.once hd hdir (h.writable d hd) h.covers) hc).1
  returns d hd hdir i hi hlive := close_returns h.once hd hdir (h.writable d hd) hi hlive
  ignores fd hfd := close_none (getfile_none hfd 0)

/-- In every state of every run, the law of descriptors holds for all but the descriptors of
directories, which `close` does not close. A descriptor is for the same inode until it is closed,
and its number is never resolved again after that. -/
theorem descriptors_lawful {s₀ : Session} (h : s₀.Starts) (hr : s₀.Run as s) : s.Law ∧
    ∀ as' s', s.Run as' s' →
      (∀ d ∈ s.desc.fdList, .call (.close d.fd) ∉ as' →
        ∃ d' ∈ s'.desc.fdList, d'.fd = d.fd ∧ d'.handles = d.handles) ∧
      ∀ fd ∈ s.returned, fd ∉ s.desc.fdList.map (·.fd) →
        ∀ searchdir, getfile s'.desc.fdList fd searchdir = none := by
  have hs := h.sound.run hr
  refine ⟨hs.law, fun as' s' hr' => ⟨fun d hd hc => ?_, fun fd hfd hn k => ?_⟩⟩
  · obtain ⟨d', hd', hkey⟩ := hs.kept hr' hd hc
    have hh := congrArg (fun k : Int × Addr × Bool × Option Addr => k.2.1 :: k.2.2.2.toList) hkey
    exact ⟨d', hd', congrArg (·.1) hkey, hh⟩
  · exact getfile_none (hs.gone hr' hfd hn).2 k

/-! ## A directory and a file are opened -/

/-- `"/"`. -/
def rootName : CString := ⟨[slash], by decide⟩

/-- Whether a call returns, with a state that passes the test. -/
def passes {α : Type} (test : α → Descriptors → Bool) : Except Stop (α × Descriptors) → Bool
  | .ok (a, d) => test a d
  | .error _ => false

theorem ok_of_passes {α : Type} {test : α → Descriptors → Bool} {r : Except Stop (α × Descriptors)}
    (h : passes test r = true) : ∃ a d, r = .ok (a, d) ∧ test a d = true := by
  cases r with
  | error e => cases h
  | ok r => exact ⟨r.1, r.2, rfl, h⟩

/-- The process has the root directory and a file open. -/
def bothOpen (d : Descriptors) : Bool :=
  d.fdList.any (fun e => e.fd == 2 && e.dir.isSome) &&
    d.fdList.any fun e => e.fd == 3 && e.dir.isNone

/-- A process starts on a device that was just formatted and has a file in the root directory. It
opens the directory and the file, and closes the file. -/
theorem opens_both : ∃ s₀ s s' : Session, s₀.Starts ∧
    s₀.Run [.openFile nameA, .openFile rootName] s ∧ s.Step (.call (.close 3)) s' ∧
    bothOpen s.desc = true := by
  have htest : (runFormatted (Env.calm 1) (fun _ => false) (Disk.blank 32)
      [.create nameA 0 false]).toOption.any (fun r =>
        decide (r.2.history.Free closingEvents) &&
          passes (fun fd d => fd == 2 && passes (fun fd' d' => fd' == 3 && bothOpen d' &&
            passes (fun _ _ => true) (DescriptorCall.serve (.close 3) d')) (openFile nameA d))
              (openFile rootName ⟨r.2, 2, []⟩)) = true := by decide +kernel
  obtain ⟨⟨files, fs⟩, hr, htest⟩ := (Option.any_eq_true _ _).mp htest
  simp only [Bool.and_eq_true, decide_eq_true_eq] at htest
  obtain ⟨hfree, htest⟩ := htest
  have hsettled : Settled files fs :=
    wp_ok (runFormatted_keepsAccounts _ _ _ _) (toOption_some hr) hfree
  obtain ⟨fd, d, hroot, htest⟩ := ok_of_passes htest
  simp only [Bool.and_eq_true, beq_iff_eq] at htest
  obtain ⟨rfl, htest⟩ := htest
  obtain ⟨fd', d', hfile, htest⟩ := ok_of_passes htest
  simp only [Bool.and_eq_true, beq_iff_eq] at htest
  obtain ⟨⟨rfl, hboth⟩, htest⟩ := htest
  obtain ⟨_, d'', hclose, -⟩ := ok_of_passes htest
  exact ⟨⟨⟨fs, 2, []⟩, []⟩, _, _, ⟨rfl, rfl, rfl, _, hsettled.counted⟩,
    .cons (.cons .nil (show [].length + 2 < 2 ^ 31 by decide) (.openFile hroot))
      (show [(2 : Int)].length + 2 < 2 ^ 31 by decide) (.openFile hfile),
    .call hclose, hboth⟩

/-- The directory is still open when the file has been closed. -/
theorem descriptors_lawful_both : ∃ s₀ s s' : Session,
    s₀.Run [.openFile nameA, .openFile rootName] s ∧ s.Step (.call (.close 3)) s' ∧ s.Law ∧
    s'.Law ∧ ∃ d ∈ s'.desc.fdList, d.fd = 2 := by
  obtain ⟨s₀, s, s', h, hr, hs, hboth⟩ := opens_both
  obtain ⟨hlaw, hlater⟩ := descriptors_lawful h hr
  simp only [bothOpen, Bool.and_eq_true, List.any_eq_true, beq_iff_eq] at hboth
  obtain ⟨⟨d, hd, hfd, -⟩, -⟩ := hboth
  have hopen : Act.call (.close d.fd) ∉ [Act.call (.close 3)] := by
    rw [hfd]
    simp
  have hsmall : s.Small (.call (.close 3)) := trivial
  obtain ⟨d', hd', hfd', -⟩ := (hlater _ s' (.cons .nil hsmall hs)).1 d hd hopen
  exact ⟨s₀, s, s', hr, hs, hlaw, (descriptors_lawful h (.cons hr hsmall hs)).1, d', hd',
    hfd'.trans hfd⟩

/-- The descriptor of a directory is still there after `close`. -/
theorem directory_stays_open : ¬ ∀ (s₀ s : Session) as, s₀.Starts → s₀.Run as s →
    ∀ d ∈ s.desc.fdList, ∃ d', close d.fd s.desc = .ok ((), d') ∧ Closed s.desc d d' := by
  intro hall
  obtain ⟨s₀, s, s', h, hr, -, hboth⟩ := opens_both
  simp only [bothOpen, Bool.and_eq_true, List.any_eq_true] at hboth
  obtain ⟨⟨d, hd, -, hdir⟩, -⟩ := hboth
  obtain ⟨d', hc, hclosed⟩ := hall s₀ s _ h hr d hd
  have hnone := ((h.sound.run hr).law.closes d hd d' hc).mp hclosed
  rw [hnone] at hdir
  cases hdir

end Session

end Pintos.Process

import Pintos.Properties.Creation

/-!
# Serving operations

`Serving files s` is what holds between two operations of processes: the free map, the current
directories and `files` have the handles, besides those to removed inodes that `filesys_open` has
left behind. Every operation keeps it, so it holds all along a run.
-/

namespace Pintos.Filesys

open Pintos.Logic Pintos.Logic.Exec Pintos.Lib

attribute [local irreducible] Exec.wp

variable {s s' : Fs} {a : Addr} {k : Nat} {f : File} {cs ts : List Addr} {ls : List Nat}
  {files : List File}

/-! ## Operations -/

/-- What the running thread asks the file system for. An open file is given by its place in the list
of open files. -/
inductive Operation where
  /-- The scheduler runs another thread. -/
  | schedule (thread : Nat)
  | create (path : CString) (initialSize : Int32) (dirFlag : Bool)
  | open (name : CString)
  | close (n : Nat)
  | remove (name : CString)
  | cd (name : CString)
  | read (n : Nat) (size : Int)
  | write (n : Nat) (buffer : Nat → UInt8) (size : Int)
  | seek (n : Nat) (newPos : Int)

/-- Calls a function of `file.c` for an open file. Its result takes the place of the file. -/
def onFile (files : List File) (n : Nat) (call : File → Kernel File) : Kernel (List File) :=
  match files[n]? with
  | none => return files
  | some file => do
    let file ← call file
    return files.set n file

/-- Serves an operation. Returns the files that are open then. -/
def Operation.serve (files : List File) : Operation → Kernel (List File)
  | .schedule thread => do
    modify fun s => { s with current := thread }
    return files
  | .create path initialSize dirFlag => do
    let _ ← filesysCreate path initialSize.toInt dirFlag
    return files
  | .open name => do
    let file ← filesysOpen name
    return file.toList ++ files
  | .close n =>
    match files[n]? with
    | none => return files
    | some file => do
      fileClose file
      return files.eraseIdx n
  | .remove name => do
    let _ ← filesysRemove name
    return files
  | .cd name => do
    let _ ← filesysCd name
    return files
  | .read n size => onFile files n fun file => do
    let (_, file) ← fileRead file size
    return file
  | .write n buffer size => onFile files n fun file => do
    let (_, file) ← fileWrite file buffer size
    return file
  | .seek n newPos => onFile files n fun file => fileSeek file newPos

/-- Serves operations one after the other. -/
def Operation.serveAll : List Operation → (files : List File) → Kernel (List File)
  | [], files => return files
  | op :: ops, files => do
    let files ← op.serve files
    serveAll ops files

/-! ## Between two operations -/

/-- An open file that may be written to, at a position in front of which nothing is. -/
structure File.Usable (file : File) : Prop where
  writable : file.denyWrite = false
  position : 0 ≤ file.pos

/-- The file system is in order, and the handles are those of the open files `files`, of the current
directories and the ones left behind. -/
structure Serving (files : List File) (s : Fs) : Prop where
  rest : ∃ f leaked, AtRest f (files.map (·.inode) ++ (s.cwds.map (·.2.inode) ++ leaked)) s
  usable : ∀ file ∈ files, file.Usable

/-- Threads and their directories are nothing to the inodes. -/
theorem Orderly.setting (h : Orderly f cs ls ts s) (cwds : List (Nat × Dir)) (current : Nat) :
    Orderly f cs ls ts { s with cwds, current } := by
  have hf : FreeMapOk { s with cwds, current } := {
    bitCnt := h.separate.freeMap.bitCnt
    size_le := h.separate.freeMap.size_le
    header := h.separate.freeMap.header
    file := fun f hf => by
      obtain ⟨i, hi, hfile⟩ := h.separate.freeMap.file f hf
      exact ⟨i, hi, hfile.congr rfl (fun _ _ => rfl) fun x hx h0 => hfile.owned.ok x hx h0⟩ }
  exact h.sameShape ⟨rfl, rfl, rfl, rfl⟩ (h.separate.changes (changes_none hf rfl
    (fun _ h => h) (fun _ _ => rfl) (fun _ => rfl) rfl))

theorem hasCwd_handles (files : List File) (s : Fs) (leaked : List Addr) :
    HasCwd (files.map (·.inode) ++ (s.cwds.map (·.2.inode) ++ leaked)) s := by
  intro d hd
  obtain ⟨p, hp, rfl⟩ := Option.map_eq_some_iff.mp hd
  exact List.mem_append_right _ (List.mem_append_left _
    (List.mem_map_of_mem (List.mem_of_find?_eq_some hp)))

/-- Between two operations, unless one of the events has happened. -/
abbrev Keeps {α : Type} (x : Kernel α) (Q : α → Fs → Prop) (s : Fs) : Prop :=
  x.wp Safe (fun a s' => s'.history.Free sharingEvents → Q a s') s

/-- A call that changes no current directory. -/
theorem keeps_of_call {α : Type} {x : Kernel α} {g : α → List File}
    (hset : Steps SameSetting (fun _ _ => True) x)
    (hx : Keeps x (fun a s' => ∃ leaked,
      AtRest f ((g a).map (·.inode) ++ (s.cwds.map (·.2.inode) ++ leaked)) s') s)
    (hw : x.wp (fun _ => True) (fun a _ => ∀ file ∈ g a, file.Usable) s) :
    Keeps (x >>= fun a => pure (g a)) Serving s := by
  rw [Keeps, wp_bind]
  refine wp_mono (wp_and (wp_and hx (hset s)) hw) (fun _ he => he.1.1) fun a s' h =>
    (wp_pure _).mpr fun hf => ?_
  obtain ⟨leaked, hrest⟩ := h.1.1 hf
  refine ⟨⟨f, leaked, ?_⟩, h.2⟩
  rw [h.1.2.cwds]
  exact hrest

/-- A call that leaves the open files as they are. -/
theorem Serving.of_call {α : Type} {x : Kernel α} (h : Serving files s)
    (hset : Steps SameSetting (fun _ _ => True) x)
    (hx : ∀ {f : File} {cs : List Addr}, AtRest f cs s → HasCwd cs s →
      Keeps x (fun _ s' => AtRest f cs s') s) :
    Keeps (x >>= fun _ => pure files) Serving s := by
  obtain ⟨f, leaked, hrest⟩ := h.rest
  refine keeps_of_call (f := f) (g := fun _ => files) hset ?_
    (wp_mono (hset s) (fun _ _ => trivial) fun _ _ _ => h.usable)
  exact wp_mono (hx hrest (hasCwd_handles files s leaked)) (fun _ he => he)
    fun _ _ h' hf => ⟨leaked, h' hf⟩

theorem map_inode_set {n : Nat} {file file' : File} (hn : files[n]? = some file)
    (hi : file'.inode = file.inode) :
    (files.set n file').map (·.inode) = files.map (·.inode) := by
  rw [List.map_set, hi]
  refine List.ext_getElem? fun j => ?_
  rw [List.getElem?_set, List.getElem?_map]
  split
  · next hj =>
    subst hj
    rw [hn, List.length_map, if_pos (List.getElem?_eq_some_iff.mp hn).1]
    rfl
  · rfl

theorem returns_bind {α β : Type} {x : Kernel α} {g : α → Kernel β} {p : α → Prop} {q : β → Prop}
    (hx : Returns x p) (hg : ∀ a, p a → Returns (g a) q) : Returns (x >>= g) q := fun s => by
  rw [wp_bind]
  exact wp_mono (hx s) (fun _ h => h) fun a s' h => hg a h s'

theorem fileOpen_usable (r : Option Addr) :
    Returns (fileOpen r) fun f => ∀ g, f = some g → g.Usable := by
  have hnone : ∀ g : File, none = some g → g.Usable := by simp
  refine Returns.bind fun memory => ?_
  split
  · refine Returns.pure fun g hg => ?_
    cases hg
    exact ⟨rfl, Int.le_refl 0⟩
  · exact Returns.bind fun _ => Returns.pure hnone

theorem filesysOpen_usable (name : CString) :
    Returns (filesysOpen name) fun f => ∀ g, f = some g → g.Usable := by
  have hnone : ∀ g : File, none = some g → g.Usable := by simp
  refine Returns.ite (Returns.pure hnone) (Returns.bind fun r => Returns.bind fun d => ?_)
  cases d with
  | none => exact Returns.pure hnone
  | some d =>
    refine Returns.bind fun inode => ?_
    cases inode with
    | none => exact Returns.pure hnone
    | some inode =>
      exact Returns.bind fun i => Returns.ite (Returns.bind fun _ => Returns.pure hnone)
        (fileOpen_usable _)

/-- The loop counts upwards. -/
theorem writeLoop_returns (buffer : Nat → UInt8) (fuel : Nat) :
    ∀ {size offset written : Int} {bounce : Bool}, 0 ≤ written →
      Returns (writeLoop a buffer fuel size offset written bounce) (0 ≤ ·) := by
  induction fuel with
  | zero => exact fun h => Returns.pure h
  | succ fuel ih =>
    intro size offset written bounce h
    unfold writeLoop
    refine Returns.ite (Returns.pure h) (Returns.bind fun i => Returns.bind fun sectorIdx => ?_)
    dsimp only
    split
    · exact Returns.pure h
    · next hchunk =>
      have hnext := Int.add_nonneg h (Int.le_of_lt (Int.not_le.mp hchunk))
      refine Returns.ite (Returns.bind fun _ => ih hnext) (Returns.bind fun ready => ?_)
      exact Returns.ite (Returns.bind fun _ => Returns.bind fun _ => ih hnext) (Returns.pure h)

theorem inodeWriteAt_returns (a : Addr) (buffer : Nat → UInt8) (size offset : Int) :
    Returns (inodeWriteAt a buffer size offset) (0 ≤ ·) :=
  Returns.bind fun _ => Returns.ite (Returns.pure (Int.le_refl 0)) <| Returns.bind fun _ =>
    Returns.bind fun _ => Returns.ite (writeLoop_returns buffer _ (Int.le_refl 0))
      (Returns.pure (Int.le_refl 0))

/-- A call for an open file that leaves its inode open. -/
theorem Serving.onFile (h : Serving files s) (n : Nat) {call : File → Kernel File}
    (hset : ∀ file, Steps SameSetting (fun _ _ => True) (call file))
    (hx : ∀ file {f : File} {cs : List Addr}, file.inode ∈ cs →
      Serves f cs (call file) fun _ => cs)
    (hcall : ∀ file, file.Usable → Returns (call file) fun file' =>
      file'.inode = file.inode ∧ file'.Usable) :
    Keeps (onFile files n call) Serving s := by
  unfold Filesys.onFile
  cases hn : files[n]? with
  | none => exact (wp_pure _).mpr fun _ => h
  | some file =>
    have hmem := List.mem_of_getElem? hn
    obtain ⟨f, leaked, hrest⟩ := h.rest
    have hcs : file.inode ∈ files.map (·.inode) ++ (s.cwds.map (·.2.inode) ++ leaked) :=
      List.mem_append_left _ (List.mem_map_of_mem hmem)
    have hreturns := hcall file (h.usable file hmem)
    have hboth := wp_and (hx file hcs s fun _ => hrest) (hreturns s)
    refine keeps_of_call (f := f) (g := fun file' => files.set n file') (hset file) ?_
      (wp_mono (hreturns s) (fun _ _ => trivial) fun file' _ hc g hg => ?_)
    · refine wp_mono hboth (fun _ he => he.1) fun file' s' h' hf => ⟨leaked, ?_⟩
      rw [map_inode_set hn h'.2.1]
      exact h'.1 hf
    · rcases List.mem_or_eq_of_mem_set hg with hg | rfl
      · exact h.usable g hg
      · exact hc.2

theorem fileClose_serves {file : File} (hw : file.denyWrite = false) :
    Serves f (file.inode :: cs) (fileClose file) fun _ => cs := by
  unfold fileClose
  rw [hw]
  exact Serves.bind (Serves.pure () rfl) fun _ => inodeClose_serves _

theorem dirClose_serves (d : Option Dir) :
    Serves f (handle (d.map (·.inode)) ++ cs) (dirClose d) fun _ => cs := by
  cases d with
  | none => exact Serves.pure () rfl
  | some d => exact inodeClose_serves d.inode

theorem cwds_perm (s : Fs) : (s.cwds.map (·.2.inode)).Perm (handle (s.cwd.map (·.inode)) ++
    (s.cwds.eraseP (·.1 == s.current)).map (·.2.inode)) := by
  unfold Fs.cwd
  cases hfind : s.cwds.find? (·.1 == s.current) with
  | none =>
    rw [List.eraseP_of_forall_not (by simpa using List.find?_eq_none.mp hfind)]
    exact .refl _
  | some p => exact (perm_cons_eraseP hfind).map (·.2.inode)

/-- The old directory is closed before the new one takes its place. -/
theorem Serving.filesysCd (h : Serving files s) (name : CString) :
    Keeps (filesysCd name) (fun _ s' => Serving files s') s := by
  obtain ⟨f, leaked, hrest⟩ := h.rest
  unfold Filesys.filesysCd Keeps
  rw [wp_bind]
  refine wp_mono (wp_and (dirOpenPath_atRest (fun _ => hrest) (hasCwd_handles files s leaked) name)
    (dirOpenPath_steps setting_loud name s)) (fun _ he => he.1) fun d s₁ h₁ => ?_
  obtain ⟨hs₁, hset₁⟩ := h₁
  cases d with
  | none =>
    refine (wp_pure _).mpr fun hf => ⟨⟨f, leaked, ?_⟩, h.usable⟩
    rw [hset₁.cwds]
    exact hs₁ hf
  | some d =>
    dsimp only
    rw [wp_bind, wp_gets, wp_bind]
    have hperm : (d.inode :: (files.map (·.inode) ++ (s.cwds.map (·.2.inode) ++ leaked))).Perm
        (handle (s₁.cwd.map (·.inode)) ++ (files.map (·.inode) ++
          ((d.inode :: (s₁.cwds.eraseP (·.1 == s₁.current)).map (·.2.inode)) ++ leaked))) := by
      rw [← hset₁.cwds]
      refine List.perm_iff_count.mpr fun a => ?_
      have hcount := (cwds_perm s₁).count_eq a
      simp only [List.count_append, List.count_cons] at hcount ⊢
      omega
    refine wp_mono (wp_and (dirClose_serves s₁.cwd s₁ fun hf => (hs₁ hf).perm hperm)
      (dirClose_steps setting_loud s₁.cwd s₁)) (fun _ he => he.1) fun _ s₂ h₂ => ?_
    obtain ⟨hs₂, hset₂⟩ := h₂
    rw [wp_bind, wp_modify, wp_pure]
    refine fun hf => ⟨⟨f, leaked, ?_⟩, h.usable⟩
    have hcwds : (s₂.setCwd d).cwds.map (·.2.inode) =
        d.inode :: (s₁.cwds.eraseP (·.1 == s₁.current)).map (·.2.inode) := by
      rw [Fs.setCwd, hset₂.cwds, hset₂.current]
      rfl
    rw [hcwds]
    exact (hs₂ hf).imp fun _ ho => ho.setting _ s₂.current

section

variable {R : Fs → Fs → Prop} {F : Fs → Stop → Prop}

theorem fileRead_steps (q : Reading R F) {file : File} (hd : Derefs F file.inode) (size : Int) :
    Steps R F (fileRead file size) := q.bind (inodeReadAt_steps q hd _ _) fun _ => q.pure _

theorem fileWrite_steps (q : Quiet R F) {file : File} (hd : Derefs F file.inode)
    (buffer : Nat → UInt8) (size : Int) : Steps R F (fileWrite file buffer size) :=
  q.bind (inodeWriteAt_steps q hd _ _ _) fun _ => q.pure _

theorem fileSeek_steps (q : Reading R F) (file : File) (newPos : Int) :
    Steps R F (fileSeek file newPos) := Steps.ite (q.pure _) (q.fail (by decide))

theorem onFile_steps (q : Reading R F) (files : List File) (n : Nat) {call : File → Kernel File}
    (hcall : ∀ file, Steps R F (call file)) : Steps R F (onFile files n call) := by
  unfold onFile
  cases files[n]? with
  | none => exact q.pure _
  | some file => exact q.bind (hcall file) fun _ => q.pure _

end

/-- Operations do not make events forgotten. -/
theorem Operation.serveAll_events (ops : List Operation) : ∀ files : List File,
    Steps (fun s s' => s.history.Le s'.history) (fun s e => s.history.Le e.history)
      (serveAll ops files) := by
  have hserve : ∀ (op : Operation) (files : List File),
      Steps (fun s s' => s.history.Le s'.history) (fun s e => s.history.Le e.history)
        (op.serve files) := by
    intro op files
    have l := events_loud
    cases op with
    | schedule thread =>
      exact l.bind (fun s => wp_of_run rfl (List.Subset.refl _)) fun _ => l.pure _
    | create path initialSize dirFlag =>
      exact l.bind (filesysCreate_steps l _ _ _) fun _ => l.pure _
    | «open» name => exact l.bind (filesysOpen_steps l _) fun _ => l.pure _
    | close n =>
      show Steps _ _ (match files[n]? with
        | none => pure files
        | some file => fileClose file >>= fun _ => pure (files.eraseIdx n))
      cases files[n]? with
      | none => exact l.pure _
      | some file => exact l.bind (fileClose_steps l _) fun _ => l.pure _
    | remove name => exact l.bind (filesysRemove_steps l _) fun _ => l.pure _
    | cd name =>
      exact l.bind (filesysCd_steps l (fun s _ => List.Subset.refl _) _) fun _ => l.pure _
    | read n size =>
      exact onFile_steps l.toReading _ _ fun _ =>
        l.bind (fileRead_steps l.toReading (l.derefs _) _) fun _ => l.pure _
    | write n buffer size =>
      exact onFile_steps l.toReading _ _ fun _ =>
        l.bind (fileWrite_steps l.toQuiet (l.derefs _) _ _) fun _ => l.pure _
    | seek n newPos => exact onFile_steps l.toReading _ _ fun _ => fileSeek_steps l.toReading _ _
  induction ops with
  | nil => exact fun files => events_loud.pure _
  | cons op ops ih => exact fun files => events_loud.bind (hserve op files) fun files => ih files

/-- Every operation keeps the file system in order. -/
theorem Operation.serve_keeps (op : Operation) (h : Serving files s) :
    Keeps (op.serve files) Serving s := by
  cases op with
  | schedule thread =>
    refine wp_of_run rfl fun _ => ⟨?_, h.usable⟩
    obtain ⟨f, leaked, hrest⟩ := h.rest
    exact ⟨f, leaked, hrest.imp fun _ ho => ho.setting s.cwds thread⟩
  | create path initialSize dirFlag =>
    exact h.of_call (filesysCreate_steps setting_loud _ _ _) fun hs hcwd =>
      filesysCreate_wp (fun _ => hs) hcwd path (Int32.toInt_lt initialSize) dirFlag
  | «open» name =>
    obtain ⟨f, leaked, hrest⟩ := h.rest
    refine keeps_of_call (f := f) (g := fun file => file.toList ++ files)
      (filesysOpen_steps setting_loud name) ?_ ?_
    · refine wp_mono (filesysOpen_wp (fun _ => hrest) (hasCwd_handles files s leaked) name)
        (fun _ he => he) fun file s' h' hf => ?_
      obtain ⟨left, hleft⟩ := h' hf
      refine ⟨left ++ leaked, hleft.perm (List.perm_iff_count.mpr fun a => ?_)⟩
      cases file with
      | none =>
        simp only [List.count_append, Option.toList_none, List.nil_append, Option.map_none, handle]
        omega
      | some file =>
        simp only [List.count_append, List.count_cons, Option.toList_some, Option.map_some,
          List.map_cons, List.cons_append, List.nil_append, handle]
        omega
    · refine wp_mono (filesysOpen_usable name s) (fun _ he => he) fun file _ hw g hg => ?_
      rcases List.mem_append.mp hg with hg | hg
      · exact hw g (by simpa using hg)
      · exact h.usable g hg
  | close n =>
    show Keeps (match files[n]? with
      | none => pure files
      | some file => fileClose file >>= fun _ => pure (files.eraseIdx n)) Serving s
    cases hn : files[n]? with
    | none => exact (wp_pure _).mpr fun _ => h
    | some file =>
      obtain ⟨f, leaked, hrest⟩ := h.rest
      have hw := (h.usable file (List.mem_of_getElem? hn)).writable
      have hperm := ((perm_cons_eraseIdx hn).map (·.inode)).append_right
        (s.cwds.map (·.2.inode) ++ leaked)
      refine keeps_of_call (f := f) (g := fun _ => files.eraseIdx n)
        (fileClose_steps setting_loud file) ?_ ?_
      · exact wp_mono (fileClose_serves hw s fun _ => hrest.perm hperm) (fun _ he => he)
          fun _ _ h' hf => ⟨leaked, h' hf⟩
      · exact wp_mono (fileClose_steps setting_loud file s) (fun _ _ => trivial)
          fun _ _ _ g hg => h.usable g ((List.eraseIdx_sublist _ _).subset hg)
  | remove name =>
    exact h.of_call (filesysRemove_steps setting_loud _) fun hs hcwd =>
      filesysRemove_wp (fun _ => hs) hcwd name
  | cd name =>
    show Keeps (filesysCd name >>= fun _ => pure files) Serving s
    rw [Keeps, wp_bind]
    exact wp_mono (h.filesysCd name) (fun _ he => he) fun _ _ h' => (wp_pure _).mpr h'
  | read n size =>
    refine h.onFile n (fun file => ?_) (fun file _ _ _ => ?_) fun file hfile => ?_
    · exact setting_loud.bind (fileRead_steps setting_loud.toReading (setting_loud.derefs _) _)
        fun _ => setting_loud.pure _
    · exact Serves.of_reading fun _ _ q d => q.bind (fileRead_steps q (d _) _) fun _ => q.pure _
    · exact returns_bind (p := fun r => r.2.inode = file.inode ∧ r.2.Usable)
        (Returns.bind fun _ => Returns.pure ⟨rfl, hfile.writable,
          Int.add_nonneg hfile.position (Int.natCast_nonneg _)⟩) fun _ h => Returns.pure h
  | write n buffer size =>
    refine h.onFile n (fun file => ?_) (fun file f cs hcs => ?_) fun file hfile => ?_
    · exact setting_loud.bind (fileWrite_steps setting_loud.toQuiet (setting_loud.derefs _) _ _)
        fun _ => setting_loud.pure _
    · have hcs : file.inode ∈ [] ++ cs := hcs
      exact Serves.bind (Serves.bind (Owns.serves
        (fun _ _ l => inodeWriteAt_steps l.toQuiet (l.derefs _) _ _ _)
          fun _ => inodeWriteAt_owns hcs _ _ _) fun _ => Serves.pure _ rfl) fun _ => Serves.pure _ rfl
    · exact returns_bind (p := fun r => r.2.inode = file.inode ∧ r.2.Usable)
        (returns_bind (inodeWriteAt_returns _ _ _ _) fun _ hr => Returns.pure ⟨rfl, hfile.writable,
          Int.add_nonneg hfile.position hr⟩) fun _ h => Returns.pure h
  | seek n newPos =>
    refine h.onFile n (fun file => ?_) (fun file _ _ _ => ?_) fun file hfile => ?_
    · exact fileSeek_steps setting_loud.toReading _ _
    · exact Serves.of_reading fun _ _ q _ => fileSeek_steps q _ _
    · unfold fileSeek
      split
      · next hpos => exact Returns.pure ⟨rfl, hfile.writable, hpos⟩
      · exact fun _ => wp_fail.mpr trivial

/-- And so does a run of them. -/
theorem Operation.serveAll_keeps (ops : List Operation) :
    ∀ {files : List File} {s : Fs}, (s.history.Free sharingEvents → Serving files s) →
      Keeps (serveAll ops files) Serving s := by
  induction ops with
  | nil => exact fun h => (wp_pure _).mpr h
  | cons op ops ih =>
    intro files s h
    by_cases hf : s.history.Free sharingEvents
    · show Keeps (op.serve files >>= fun files => serveAll ops files) Serving s
      rw [Keeps, wp_bind]
      exact wp_mono (op.serve_keeps (h hf)) (fun _ he => he) fun _ _ h' => ih h'
    · refine wp_mono (serveAll_events (op :: ops) files s) (fun _ hle hf' => ?_)
        fun _ _ hle hf' => ?_
      · exact absurd (hf'.of_le hle) hf
      · exact absurd (hf'.of_le hle) hf

end Pintos.Filesys

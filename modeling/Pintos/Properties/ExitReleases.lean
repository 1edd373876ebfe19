import Pintos.Properties.ExecResult
import Pintos.Properties.Frames
import Pintos.Userprog.Exit
import Mathlib.Logic.Relation

/-!
# What `process_exit` gives back

It gives back the executable, the records of the children and the page directory, unless it
returns early. It never closes an open file or the current directory.
-/

namespace Pintos.Process

open Pintos.Lib Pintos.Logic Pintos.Logic.Exec Pintos.Filesys

/-! ## What is to be shown -/

/-- How often an open inode is open, and how often writing to it is denied. -/
def tally (s : Fs) (inode : Addr) : Option (Int × Int) :=
  (s.inode? inode).map fun i => (i.openCnt, i.denyWriteCnt)

/-- The inodes that a descriptor has open. -/
def FileDescriptor.handles (d : FileDescriptor) : List Addr :=
  d.file.inode :: (d.dir.map (·.inode)).toList

/-- The inodes that a process has open, each as often as it has. -/
def World.handles (w : World) (p : Ptr) : List Addr :=
  ((w.held p).runningFile.map (·.inode)).toList ++
    (w.held p).fdList.flatMap FileDescriptor.handles ++ ((w.cwd p).map (·.inode)).toList

/-- The count of an inode less some handles. Without a handle it is closed. -/
def lowered (n : Int) (k : Nat) : Option Int := if n - k = 0 then none else some (n - k)

/-- `process_exit` of `p` has given back all that `p` held, and done nothing else. -/
structure Released (w : World) (p : Ptr) (w' : World) : Prop where
  /-- Every inode that `p` held is open as many times less as it held it. -/
  counts : ∀ a ∈ w.handles p, ∃ n, (tally w.fs a).map (·.1) = some n ∧
    (tally w'.fs a).map (·.1) = lowered n ((w.handles p).count a)
  /-- Writing to its executable is denied once less. -/
  allowed : ∀ file, (w.held p).runningFile = some file → file.denyWrite = true →
    ∀ n d n' d', tally w.fs file.inode = some (n, d) → tally w'.fs file.inode = some (n', d') →
      d' = d - 1
  /-- Its records are freed. -/
  records : (w'.sys.thread p).childThreadList = []
  /-- Its page directory is freed. -/
  pagedir : (w'.held p).pagedir = none ∧
    ∀ pd, (w.held p).pagedir = some pd → pd ∉ w'.pagedirs
  /-- The rest of the file system is as before, -/
  inodes : ∀ a ∉ w.handles p, tally w'.fs a = tally w.fs a
  /-- and what the other threads hold. -/
  others : ∀ q, q ≠ p → w'.held q = w.held q ∧ w'.cwd q = w.cwd q
  pagedirs : ∀ pd ∈ w.pagedirs, (w.held p).pagedir ≠ some pd → pd ∈ w'.pagedirs
  /-- No other thread changes, except that the parent of `p`, if it is still there, may see its
  record of `p` upped. -/
  threads : ∀ q, q ≠ p → w'.sys.thread q = w.sys.thread q ∨
    w.sys.maker p = some q ∧ q ∈ w.sys.allList ∧ w'.sys.thread q = { w.sys.thread q with
      childThreadList := upChild (w.sys.tid p) (w.sys.thread q).childThreadList }

/-- The condition for that. -/
structure ExitsClean (w : World) (p : Ptr) : Prop where
  /-- The process has no open files, -/
  files : (w.held p).fdList = []
  /-- and no current directory. -/
  cwd : w.cwd p = none
  /-- It holds nothing else either, if the thread that `thread_get_by_tid` takes for its parent has
  no records. -/
  early : ∀ t, threadGetByTid w.sys (w.sys.parentTid p) = some t →
    (w.sys.thread t).childThreadList = [] →
    (w.held p).runningFile = none ∧ (w.held p).pagedir = none ∧
      (w.sys.thread p).childThreadList = []
  /-- That thread has a record of it only if it is its parent. -/
  parent : ∀ t, t ≠ p → threadGetByTid w.sys (w.sys.parentTid p) = some t →
    w.sys.tid p ∈ w.sys.childTids t → w.sys.maker p = some t

/-! ## Counts of open inodes -/

section

variable {s s' : Fs} {a b : Addr}

/-- What a change of one inode does to the counts. -/
theorem tally_mapInode (s : Fs) (a : Addr) (f : Inode → Inode) (hf : ∀ i, (f i).addr = i.addr)
    (b : Addr) : tally (s.mapInode a f) b =
      if b = a then (s.inode? a).map fun i => ((f i).openCnt, (f i).denyWriteCnt)
      else tally s b := by
  have hp : ((fun i : Inode => i.addr == b) ∘ fun i => if i.addr = a then f i else i) =
      fun i => i.addr == b := by
    funext i
    by_cases hi : i.addr = a <;> simp [hi, hf]
  have hfind : (s.mapInode a f).inode? b =
      (s.inode? b).map fun i => if i.addr = a then f i else i := by
    rw [Fs.inode?, Fs.mapInode, List.find?_map, hp, Fs.inode?]
  rw [tally, tally, hfind]
  cases hi : s.inode? b with
  | none =>
    split
    · next hb => rw [← hb, hi, Option.map_none, Option.map_none, Option.map_none]
    · rfl
  | some i =>
    have hb : i.addr = b := by simpa using List.find?_some hi
    by_cases hba : b = a
    · rw [if_pos hba, ← hba, hi, Option.map_some, Option.map_some, if_pos hb, Option.map_some]
    · rw [if_neg hba, Option.map_some, Option.map_some, if_neg (hb ▸ hba), Option.map_some]

theorem tally_filter (s : Fs) (is : List Inode) (a b : Addr) :
    tally { s with openInodes := is.filter (·.addr != a) } b =
      if b = a then none else tally { s with openInodes := is } b := by
  rw [tally, tally, Fs.inode?, Fs.inode?, List.find?_filter]
  split
  · next hb =>
    rw [Option.map_eq_none_iff, List.find?_eq_none]
    intro i _
    simp [hb]
  · next hb =>
    congr 2
    funext i
    by_cases hi : i.addr = b <;> simp [hi, hb]

/-- Code that opens and closes nothing leaves all counts alone. -/
theorem tally_quiet :
    Filesys.Quiet (fun s s' => ∀ b, tally s' b = tally s b) (fun _ _ => True) where
  refl _ _ := rfl
  trans h h' b := (h' b).trans (h b)
  fault _ _ := trivial
  stop _ _ _ := trivial
  step _ _ _ _ _ := rfl
  freeMap _ _ _ _ := rfl
  history _ _ _ _ := rfl
  data s a d b := by
    rw [tally_mapInode s a (fun i => { i with data := d }) fun _ => rfl]
    split
    · next hb => rw [hb, tally]
    · rfl
  releaseFree _ := trivial
  mapFile _ _ _ _ := trivial

/-- What a call of `inode_allow_write` does to the counts. -/
theorem inodeAllowWrite_tally (a : Addr) (s : Fs) :
    (inodeAllowWrite a).wp (fun _ => True) (fun _ s' =>
      (∃ n d, tally s a = some (n, d) ∧ tally s' a = some (n, d - 1)) ∧
        ∀ b, b ≠ a → tally s' b = tally s b) s := by
  unfold inodeAllowWrite
  rw [wp_bind]
  unfold wp deref
  cases hi : s.inode? a with
  | none => trivial
  | some i =>
    show (if 0 < i.denyWriteCnt ∧ i.denyWriteCnt ≤ i.openCnt then _ else _ : Kernel Unit).wp _ _ _
    split
    · have hm := tally_mapInode s a (fun i => { i with denyWriteCnt := i.denyWriteCnt - 1 })
        fun _ => rfl
      refine ⟨⟨i.openCnt, i.denyWriteCnt, by rw [tally, hi, Option.map_some], ?_⟩, fun b hb => ?_⟩
      · exact (hm a).trans (by rw [if_pos rfl, hi, Option.map_some])
      · exact (hm b).trans (if_neg hb)
    · trivial

/-- What a call of `inode_close` does to the counts. -/
theorem inodeClose_tally (a : Addr) (s : Fs) :
    (inodeClose (some a)).wp (fun _ => True) (fun _ s' =>
      (∃ n d, tally s a = some (n, d) ∧ tally s' a = (lowered n 1).map (·, d)) ∧
        ∀ b, b ≠ a → tally s' b = tally s b) s := by
  cases hi : s.inode? a with
  | none =>
    unfold inodeClose
    rw [wp_bind]
    unfold wp derefClose
    rw [hi]
    trivial
  | some i =>
    have hd : derefClose a s = .ok (i, s) := by
      unfold derefClose
      rw [hi]
    have hm := tally_mapInode s a (fun i => { i with openCnt := i.openCnt - 1 }) fun _ => rfl
    have hold : tally s a = some (i.openCnt, i.denyWriteCnt) := by
      rw [tally, hi, Option.map_some]
    unfold inodeClose
    rw [wp_bind]
    unfold wp
    rw [hd]
    show (if i.openCnt - 1 = 0 then _ else _ : Kernel Unit).wp _ _ _
    split
    · next hz =>
      -- the inode is freed, and then perhaps its sectors
      have hclose : ∀ s₁ s' : Fs, (∀ b, b ≠ a → tally s₁ b = tally s b) →
          (∀ b, tally s' b =
            tally { s₁ with openInodes := s₁.openInodes.filter (·.addr != a) } b) →
          (∃ n d, tally s a = some (n, d) ∧ tally s' a = (lowered n 1).map (·, d)) ∧
            ∀ b, b ≠ a → tally s' b = tally s b := by
        intro s₁ s' hs₁ hs'
        refine ⟨⟨i.openCnt, i.denyWriteCnt, hold, ?_⟩, fun b hb => ?_⟩
        · rw [hs' a, tally_filter, if_pos rfl]
          show none = (if i.openCnt - 1 = 0 then none else some (i.openCnt - 1)).map
            (·, i.denyWriteCnt)
          rw [if_pos hz, Option.map_none]
        · rw [hs' b, tally_filter, if_neg hb]
          exact hs₁ b hb
      have hother := fun b hb => (hm b).trans (if_neg hb)
      show (if i.removed then _ else _ : Kernel Unit).wp _ _ _
      split
      · have hq := tally_quiet.bind (freeMapRelease_steps tally_quiet i.sector) fun _ =>
          tally_quiet.bind (inodeUnreserve_steps tally_quiet i.data) fun _ => tally_quiet.pure ()
        exact wp_mono (hq _) (fun _ _ => trivial) fun _ s' h => hclose _ s' hother h
      · exact hclose _ _ hother fun _ => rfl
    · next hz =>
      refine ⟨⟨i.openCnt, i.denyWriteCnt, hold, ?_⟩, fun b hb => (hm b).trans (if_neg hb)⟩
      refine (hm a).trans ?_
      rw [if_pos rfl, hi]
      show some (i.openCnt - 1, i.denyWriteCnt) =
        (if i.openCnt - 1 = 0 then none else some (i.openCnt - 1)).map (·, i.denyWriteCnt)
      rw [if_neg hz, Option.map_some]

/-- What `process_exit` does with the executable leaves one handle less to it. -/
theorem closeRunningFile_tally (file : File) (s : Fs) :
    (closeRunningFile file).wp (fun _ => True) (fun _ s' =>
      (∃ n d, tally s file.inode = some (n, d) ∧
        tally s' file.inode =
          (lowered n 1).map (·, if file.denyWrite = true then d - 1 else d)) ∧
        ∀ b, b ≠ file.inode → tally s' b = tally s b) s := by
  unfold closeRunningFile fileAllowWrite
  rw [wp_bind, wp_bind]
  show (if file.denyWrite = true then _ else _ : Kernel Unit).wp _ _ _
  cases hd : file.denyWrite with
  | false => exact inodeClose_tally file.inode s
  | true =>
    refine wp_mono (inodeAllowWrite_tally file.inode s) (fun _ _ => trivial) ?_
    rintro - s₁ ⟨⟨n, d, h, h₁⟩, hb⟩
    show (inodeClose (some file.inode)).wp _ _ s₁
    refine wp_mono (inodeClose_tally file.inode s₁) (fun _ _ => trivial) ?_
    rintro - s₂ ⟨⟨n', d', h₁', h₂⟩, hb'⟩
    rw [h₁, Option.some.injEq, Prod.mk.injEq] at h₁'
    obtain ⟨rfl, rfl⟩ := h₁'
    exact ⟨⟨n, d, h, h₂⟩, fun b hne => (hb' b hne).trans (hb b hne)⟩

theorem closeRunningFile_cwds (file : File) (s : Fs) :
    (closeRunningFile file).wp (fun _ => True) (fun _ s' => s'.cwds = s.cwds) s := by
  have hl := setting_loud
  have hs : Steps SameSetting (fun _ _ => True) (closeRunningFile file) :=
    hl.bind (hl.bind (Steps.ite (inodeAllowWrite_steps hl _) (hl.pure _)) fun _ => hl.pure _)
      fun _ => fileClose_steps hl _
  exact wp_mono (hs s) (fun _ _ => trivial) fun _ s' h => h.cwds

end

/-! ## The call -/

section

variable {w w' : World} {p : Ptr}

/-- What `process_exit` does after it has woken its parent. -/
structure GaveBack (w : World) (p : Ptr) (w' : World) : Prop where
  sys : w'.sys = w.sys.setThread p fun r => { r with childThreadList := [] }
  self : w'.held p = ⟨none, none, []⟩
  other : ∀ q, q ≠ p → w'.held q = w.held q
  pagedirs : w'.pagedirs = match (w.held p).pagedir with
    | none => w.pagedirs
    | some pd => w.pagedirs.filter (· != pd)
  cwds : w'.fs.cwds = w.fs.cwds
  kept : (w.held p).runningFile = none → w'.fs = w.fs
  closed : ∀ file, (w.held p).runningFile = some file →
    (∃ n d, tally w.fs file.inode = some (n, d) ∧ tally w'.fs file.inode =
      (lowered n 1).map (·, if file.denyWrite = true then d - 1 else d)) ∧
    ∀ b, b ≠ file.inode → tally w'.fs b = tally w.fs b

namespace World

variable (f g : Resources → Resources)

@[simp] theorem setHeld_self : (w.setHeld p f).held p = f (w.held p) := Function.update_self ..

theorem setHeld_other {q : Ptr} (h : q ≠ p) : (w.setHeld p f).held q = w.held q :=
  Function.update_of_ne h ..

end World

@[simp] theorem wp_inFilesys {α : Type} (x : Kernel α) {E : Stop → Prop} {Q : α → World → Prop} :
    (inFilesys x).wp E Q w ↔ x.wp E (fun a fs => Q a { w with fs }) w.fs := by
  unfold wp inFilesys
  cases x w.fs <;> rfl

theorem giveBack_gaveBack (p : Ptr) (w : World) :
    (giveBack p).wp (fun _ => True) (fun _ w' => GaveBack w p w') w := by
  unfold giveBack
  rw [wp_bind, wp_gets]
  cases hf : (w.held p).runningFile with
  | none =>
    simp only [freeChildList, freeOpenedFile, wp_bind, wp_modify]
    cases hpd : (w.held p).pagedir with
    | none =>
      refine ⟨rfl, ?_, fun q hq => World.setHeld_other _ hq, by rw [hpd]; rfl, rfl, fun _ => rfl,
        by simp [hf]⟩
      simp [World.setSys, hf, hpd]
    | some pd =>
      refine ⟨rfl, ?_, fun q hq => ?_, by rw [hpd]; rfl, rfl, fun _ => rfl, by simp [hf]⟩
      · simp [World.setSys, hf]
      · simp [World.setSys, World.setHeld_other _ hq]
  | some file =>
    simp only [freeChildList, freeOpenedFile, wp_bind, wp_modify, wp_inFilesys]
    refine wp_mono (wp_and (closeRunningFile_tally file w.fs) (closeRunningFile_cwds file w.fs))
      (fun _ _ => trivial) ?_
    rintro - fs ⟨htally, hcwds⟩
    have hclosed : ∀ file', (w.held p).runningFile = some file' → file' = file := by
      rw [hf]
      exact fun _ h => (Option.some.inj h).symm
    cases hpd : (w.held p).pagedir with
    | none =>
      refine ⟨rfl, ?_, fun q hq => ?_, by rw [hpd]; rfl, hcwds, by simp [hf],
        fun _ h => hclosed _ h ▸ htally⟩
      · simp [World.setSys, hpd]
      · simp [World.setSys, World.setHeld_other _ hq]
    | some pd =>
      refine ⟨rfl, ?_, fun q hq => ?_, by rw [hpd]; rfl, hcwds, by simp [hf],
        fun _ h => hclosed _ h ▸ htally⟩
      · simp [World.setSys]
      · simp [World.setSys, World.setHeld_other _ hq]

/-! ## The condition -/

theorem lowered_eq_self {n : Int} {k : Nat} (h : some n = lowered n k) : k = 0 := by
  unfold lowered at h
  split at h
  · cases h
  · rw [Option.some.injEq] at h
    omega

theorem lowered_inj {n : Int} {k l : Nat} (h : lowered n k = lowered n l) : k = l := by
  unfold lowered at h
  split at h <;> split at h
  · omega
  · cases h
  · cases h
  · rw [Option.some.injEq] at h
    omega

/-- Inodes are open as many times less as they are in the list. -/
def Closes (l : List Addr) (s s' : Fs) : Prop := ∀ a, (a ∉ l → tally s' a = tally s a) ∧
  (a ∈ l → ∃ n, (tally s a).map (·.1) = some n ∧ (tally s' a).map (·.1) = lowered n (l.count a))

theorem Closes.nil (s : Fs) : Closes [] s s := fun _ => ⟨fun _ => rfl, by simp⟩

/-- An inode cannot have been closed in two ways. -/
theorem Closes.count_eq {l l' : List Addr} {s s' : Fs} (h : Closes l s s') (h' : Closes l' s s')
    (a : Addr) : l.count a = l'.count a := by
  have hone : ∀ {l l' : List Addr}, Closes l s s' → Closes l' s s' → a ∈ l → a ∉ l' → False := by
    intro l l' h h' hin hno
    obtain ⟨n, hn, hn'⟩ := (h a).2 hin
    rw [(h' a).1 hno, hn] at hn'
    exact absurd (lowered_eq_self hn') (Nat.ne_of_gt (List.count_pos_iff.mpr hin))
  by_cases hl : a ∈ l <;> by_cases hl' : a ∈ l'
  · obtain ⟨n, hn, hn'⟩ := (h a).2 hl
    obtain ⟨m, hm, hm'⟩ := (h' a).2 hl'
    rw [hn, Option.some.injEq] at hm
    rw [hn', ← hm] at hm'
    exact lowered_inj hm'
  · exact (hone h h' hl hl').elim
  · exact (hone h' h hl' hl).elim
  · rw [List.count_eq_zero.mpr hl, List.count_eq_zero.mpr hl']

/-- The inode of the executable. -/
def World.running (w : World) (p : Ptr) : List Addr := ((w.held p).runningFile.map (·.inode)).toList

theorem GaveBack.closes (h : GaveBack w p w') : Closes (w.running p) w.fs w'.fs := by
  intro a
  cases hf : (w.held p).runningFile with
  | none => simp [World.running, hf, h.kept hf]
  | some file =>
    obtain ⟨⟨n, d, hold, hnew⟩, hother⟩ := h.closed file hf
    refine ⟨fun ha => hother a (by simpa [World.running, hf] using ha), fun ha => ?_⟩
    have haf : a = file.inode := by simpa [World.running, hf] using ha
    refine ⟨n, by rw [haf, hold, Option.map_some], ?_⟩
    rw [haf, hnew, Option.map_map]
    simp only [World.running, hf, Option.map_some, Option.toList_some, List.count_singleton_self]
    cases lowered n 1 <;> rfl

theorem FileDescriptor.handles_ne_nil (d : FileDescriptor) : d.handles ≠ [] := by
  simp [FileDescriptor.handles]

/-- A process has no more handles than the one to its executable. -/
theorem World.handles_count_eq (h : ∀ a, (w.handles p).count a = (w.running p).count a) :
    (w.held p).fdList = [] ∧ w.cwd p = none := by
  have hnil : (w.held p).fdList.flatMap FileDescriptor.handles = [] ∧
      ((w.cwd p).map (·.inode)).toList = [] := by
    have hzero : ∀ a, a ∉ (w.held p).fdList.flatMap FileDescriptor.handles ∧
        a ∉ ((w.cwd p).map (·.inode)).toList := by
      intro a
      have ha := h a
      rw [World.handles, World.running, List.count_append, List.count_append] at ha
      rw [← List.count_eq_zero, ← List.count_eq_zero]
      omega
    exact ⟨List.eq_nil_iff_forall_not_mem.mpr fun a => (hzero a).1,
      List.eq_nil_iff_forall_not_mem.mpr fun a => (hzero a).2⟩
  refine ⟨?_, by simpa using hnil.2⟩
  rw [List.flatMap_eq_nil_iff] at hnil
  exact List.eq_nil_iff_forall_not_mem.mpr fun d hd => d.handles_ne_nil (hnil.1 d hd)

theorem Released.closes (h : Released w p w') : Closes (w.handles p) w.fs w'.fs :=
  fun a => ⟨h.inodes a, h.counts a⟩

/-- A record that has been upped is another one. -/
theorem upChild_ne {tid : Tid} {l : List ChildStatus} (h : tid ∈ l.map (·.childTid)) :
    upChild tid l ≠ l := by
  induction l with
  | nil => cases h
  | cons c l ih =>
    rw [upChild, updateChild]
    split
    · intro hn
      have hc := congrArg ChildStatus.childWaitSema (List.cons.inj hn).1
      exact absurd hc (Nat.succ_ne_self _)
    · next hc =>
      rw [List.map_cons, List.mem_cons] at h
      exact fun hn => ih (h.resolve_left (Ne.symm hc)) (List.cons.inj hn).2

theorem upChild_eq {tid : Tid} {l : List ChildStatus} (h : tid ∉ l.map (·.childTid)) :
    upChild tid l = l := by
  induction l with
  | nil => rfl
  | cons c l ih =>
    rw [List.map_cons, List.mem_cons, not_or] at h
    rw [upChild, updateChild, if_neg (Ne.symm h.1)]
    exact congrArg _ (ih h.2)

/-- The threads after the one that a thread takes for its parent has been woken. -/
def Sys.woken (s : Sys) (p : Ptr) : Sys :=
  match threadGetByTid s (s.parentTid p) with
  | none => s
  | some t => s.setThread t fun r =>
      { r with childThreadList := upChild (s.tid p) r.childThreadList }

/-- `process_exit` returns early, or wakes the thread it takes for the parent and gives back what
the process holds. -/
theorem processExit_cases (h : processExit p w = .ok ((), w')) :
    (∃ t, threadGetByTid w.sys (w.sys.parentTid p) = some t ∧
      (w.sys.thread t).childThreadList = [] ∧ w' = w) ∨
    (∀ t, threadGetByTid w.sys (w.sys.parentTid p) = some t →
      (w.sys.thread t).childThreadList ≠ []) ∧
      GaveBack { w with sys := w.sys.woken p } p w' := by
  have hwp : (processExit p).wp (fun _ => True) (fun _ w' =>
      (∃ t, threadGetByTid w.sys (w.sys.parentTid p) = some t ∧
        (w.sys.thread t).childThreadList = [] ∧ w' = w) ∨
      (∀ t, threadGetByTid w.sys (w.sys.parentTid p) = some t →
        (w.sys.thread t).childThreadList ≠ []) ∧
        GaveBack { w with sys := w.sys.woken p } p w') w := by
    unfold processExit
    rw [wp_bind, wp_gets]
    have hparent : (w.sys.thread p).parentTid = w.sys.parentTid p := rfl
    rw [hparent]
    unfold Sys.woken
    cases ht : threadGetByTid w.sys (w.sys.parentTid p) with
    | none =>
      exact wp_mono (giveBack_gaveBack p w) (fun _ _ => trivial) fun _ w' h => Or.inr ⟨by simp, h⟩
    | some t =>
      rw [wp_ite]
      refine ⟨fun hn => Or.inl ⟨t, rfl, hn, rfl⟩, fun hn => ?_⟩
      rw [wp_bind, wp_modify]
      refine wp_mono (giveBack_gaveBack p _) (fun _ _ => trivial) fun _ w' h => Or.inr ⟨?_, h⟩
      rintro t' ht'
      cases ht'
      exact hn
  unfold wp at hwp
  rwa [h] at hwp

theorem getByTidFrom_mem {tid : Ptr → Tid} {goal : Tid} {es : List Ptr} {e t : Ptr}
    (h : getByTidFrom tid goal (some e) es = some t) : t = e ∨ t ∈ es := by
  induction es generalizing e with
  | nil =>
    left
    exact (Option.some.inj h).symm
  | cons e' es ih =>
    rw [getByTidFrom] at h
    split at h
    · rw [← Option.some.inj h]
      exact Or.inr List.mem_cons_self
    · rcases ih h with rfl | ht
      · exact Or.inr List.mem_cons_self
      · exact Or.inr (List.mem_cons_of_mem _ ht)

theorem threadGetByTid_mem {s : Sys} {tid : Tid} {t : Ptr} (h : threadGetByTid s tid = some t) :
    t ∈ s.allList := by
  unfold threadGetByTid at h
  cases hl : s.allList with
  | nil =>
    rw [hl] at h
    cases h
  | cons e es =>
    rw [hl, getByTidFrom] at h
    split at h
    · rw [← Option.some.inj h]
      exact List.mem_cons_self
    · rcases getByTidFrom_mem h with rfl | ht
      · exact List.mem_cons_self
      · exact List.mem_cons_of_mem _ ht

theorem threadGetByTid_some {s : Sys} (tid : Tid) (h : s.allList ≠ []) :
    ∃ t, threadGetByTid s tid = some t := by
  have hfrom : ∀ es (e : Ptr), ∃ t, getByTidFrom (fun t => (s.thread t).tid) tid (some e) es =
      some t := by
    intro es
    induction es with
    | nil => exact fun e => ⟨e, rfl⟩
    | cons e' es ih =>
      intro e
      rw [getByTidFrom]
      split
      · exact ⟨e', rfl⟩
      · exact ih e'
  obtain ⟨e, es, he⟩ := List.exists_cons_of_ne_nil h
  rw [threadGetByTid, he, getByTidFrom]
  split
  · exact ⟨e, rfl⟩
  · exact hfrom es e

theorem woken_thread {s : Sys} {q : Ptr} (p : Ptr) : (s.woken p).thread q = s.thread q ∨
    threadGetByTid s (s.parentTid p) = some q ∧ (s.woken p).thread q = { s.thread q with
      childThreadList := upChild (s.tid p) (s.thread q).childThreadList } := by
  unfold Sys.woken
  cases ht : threadGetByTid s (s.parentTid p) with
  | none => exact Or.inl rfl
  | some t =>
    by_cases hq : q = t
    · exact Or.inr ⟨by rw [hq], by rw [hq, Sys.setThread_self]⟩
    · exact Or.inl (Sys.setThread_other _ _ hq)

/-- A process that holds nothing has no handles. -/
theorem World.handles_nil (hf : (w.held p).fdList = []) (hc : w.cwd p = none) :
    w.handles p = w.running p := by
  simp [World.handles, World.running, hf, hc]

/-- After an early return, everything is as it was. -/
theorem released_early {t : Ptr} (ht : threadGetByTid w.sys (w.sys.parentTid p) = some t)
    (hnil : (w.sys.thread t).childThreadList = []) : Released w p w ↔ ExitsClean w p := by
  constructor
  · intro hr
    have hzero : ∀ a, (w.handles p).count a = 0 := fun a => hr.closes.count_eq (.nil w.fs) a
    have hrun : w.running p = [] := by
      refine List.eq_nil_iff_forall_not_mem.mpr fun a ha => ?_
      rw [← List.count_pos_iff] at ha
      have hle := hzero a
      rw [World.handles, List.count_append, List.count_append] at hle
      have hle' : (w.running p).count a = 0 := by
        rw [World.running]
        omega
      omega
    obtain ⟨hf, hc⟩ := World.handles_count_eq (w := w) (p := p) fun a => by
      rw [hzero, hrun, List.count_nil]
    refine ⟨hf, hc, fun _ _ _ => ⟨?_, hr.pagedir.1, hr.records⟩, fun t' _ ht' hin => ?_⟩
    · simpa [World.running] using hrun
    · rw [ht, Option.some.injEq] at ht'
      simp [Sys.childTids, ← ht', hnil] at hin
  · intro hc
    obtain ⟨hrun, hpd, hrec⟩ := hc.early t ht hnil
    have hnone : w.handles p = [] := by
      rw [World.handles_nil hc.files hc.cwd, World.running, hrun]
      rfl
    refine ⟨by simp [hnone], by simp [hrun], hrec, ⟨hpd, by simp [hpd]⟩, fun _ _ => rfl,
      fun _ _ => ⟨rfl, rfl⟩, fun _ h _ => h, fun _ _ => Or.inl rfl⟩

/-- When the process has given back what it gives back. -/
theorem released_late (hne : ∀ t, threadGetByTid w.sys (w.sys.parentTid p) = some t →
      (w.sys.thread t).childThreadList ≠ [])
    (hg : GaveBack { w with sys := w.sys.woken p } p w') : Released w p w' ↔ ExitsClean w p := by
  have hclose : Closes (w.running p) w.fs w'.fs := hg.closes
  have hthread : ∀ q, q ≠ p → w'.sys.thread q = (w.sys.woken p).thread q := fun q hq => by
    rw [hg.sys]
    exact Sys.setThread_other _ _ hq
  constructor
  · intro hr
    obtain ⟨hf, hc⟩ := World.handles_count_eq fun a => hr.closes.count_eq hclose a
    refine ⟨hf, hc, fun t ht hnil => absurd hnil (hne t ht), fun t htp ht hin => ?_⟩
    -- the parent's list has been upped, which is no change only if the process is not in it
    rcases hr.threads t htp with hsame | ⟨hm, -, -⟩
    · rw [hthread t htp, Sys.woken, ht] at hsame
      have hlist := congrArg Thread.childThreadList hsame
      simp only [Sys.setThread_self] at hlist
      exact absurd hlist (upChild_ne hin)
    · exact hm
  · intro hc
    have hrun := World.handles_nil hc.files hc.cwd
    constructor
    case counts =>
      rw [hrun]
      exact fun a => (hclose a).2
    case allowed =>
      intro file hfile hdeny n d n' d' hold hnew
      obtain ⟨⟨m, e, hold', hnew'⟩, -⟩ := hg.closed file hfile
      rw [hnew] at hnew'
      have hold'' := hold.symm.trans hold'
      rw [Option.some.injEq, Prod.mk.injEq] at hold''
      obtain ⟨⟨⟩, rfl⟩ := hold''
      obtain ⟨m', -, hd⟩ := Option.map_eq_some_iff.mp hnew'.symm
      rw [if_pos hdeny] at hd
      exact (Prod.mk.inj hd).2.symm
    case records =>
      rw [hg.sys, Sys.setThread_self]
    case pagedir =>
      rw [hg.self, hg.pagedirs]
      refine ⟨rfl, fun pd hpd => ?_⟩
      show pd ∉ (match (w.held p).pagedir with
        | none => w.pagedirs | some pd => w.pagedirs.filter (· != pd))
      rw [hpd]
      simp
    case inodes =>
      rw [hrun]
      exact fun a => (hclose a).1
    case others =>
      exact fun q hq => ⟨hg.other q hq, by rw [World.cwd, hg.cwds]; rfl⟩
    case pagedirs =>
      intro pd hin hpd
      rw [hg.pagedirs]
      show pd ∈ (match (w.held p).pagedir with
        | none => w.pagedirs | some pd => w.pagedirs.filter (· != pd))
      cases hpd' : (w.held p).pagedir with
      | none => exact hin
      | some pd' =>
        rw [hpd', ne_eq, Option.some.injEq] at hpd
        simpa [hin] using Ne.symm hpd
    case threads =>
      intro q hq
      rw [hthread q hq]
      rcases woken_thread (s := w.sys) (q := q) p with hsame | ⟨hq', hup⟩
      · exact Or.inl hsame
      · by_cases hin : w.sys.tid p ∈ w.sys.childTids q
        · exact Or.inr ⟨hc.parent q hq hq' hin, threadGetByTid_mem hq', hup⟩
        · rw [hup, upChild_eq hin]
          exact Or.inl rfl

/-- In a process tree, only what the process holds and the early return count. -/
theorem exitsClean_iff (ht : Tree w.sys) : ExitsClean w p ↔
    (w.held p).fdList = [] ∧ w.cwd p = none ∧
      ∀ t, threadGetByTid w.sys (w.sys.parentTid p) = some t →
        (w.sys.thread t).childThreadList = [] →
        (w.held p).runningFile = none ∧ (w.held p).pagedir = none ∧
          (w.sys.thread p).childThreadList = [] := by
  refine ⟨fun h => ⟨h.files, h.cwd, h.early⟩, fun ⟨hf, hc, he⟩ => ⟨hf, hc, he, ?_⟩⟩
  intro t _ _ hin
  obtain ⟨r, hr, htid⟩ := List.mem_map.mp hin
  exact ht.recorded_maker hr htid.symm

/-! ## The call as steps of its thread -/

/-- Steps of one thread while no other runs. -/
def Alone (p : Ptr) : Sys → Sys → Prop := Relation.ReflTransGen fun s s' => Step s p s'

variable {s : Sys}

theorem goto_goto (s : Sys) (p : Ptr) (pc pc' : Pc) : (s.goto p pc).goto p pc' = s.goto p pc' := by
  simp [Sys.goto]

/-- A search that is not disturbed finds what `thread_get_by_tid` returns. -/
theorem search_alone {tid : Tid} {after : After} {e t : Ptr} {es : List Ptr}
    (hn : s.allList.Nodup) (hl : listFrom e s.allList = e :: es)
    (hg : getByTidFrom (fun t => (s.thread t).tid) tid none (e :: es) = some t) :
    Alone p (s.goto p (.search tid e after)) (s.goto p (.found t after)) := by
  induction es generalizing e with
  | nil =>
    have ht : t = e := by
      rw [getByTidFrom] at hg
      split at hg <;> exact (Option.some.inj hg).symm
    have hlast : listNext e s.allList = none := by simp [listNext, hl]
    rw [ht, ← goto_goto s p (.search tid e after) (.found e after)]
    exact .single (.searchFound (Sys.goto_pc_self ..) (Or.inr hlast))
  | cons e' es ih =>
    have hnext : listNext e s.allList = some e' := by simp [listNext, hl]
    rw [getByTidFrom] at hg
    split at hg
    · next htid =>
      rw [← Option.some.inj hg, ← goto_goto s p (.search tid e after) (.found e after)]
      exact .single (.searchFound (Sys.goto_pc_self ..) (Or.inl htid))
    · next htid =>
      have hl' : listFrom e' s.allList = e' :: es := by rw [listFrom_next hn hnext, hl, List.tail_cons]
      refine .head ?_ (ih hl' hg)
      rw [← goto_goto s p (.search tid e after) (.search tid e' after)]
      exact .searchNext (Sys.goto_pc_self ..) htid hnext

/-- What `process_exit` does to the threads is what its thread does alone. -/
theorem processExit_alone (h : processExit p w = .ok ((), w')) (hn : w.sys.allList.Nodup)
    (hp : w.sys.pc p = .leaving) (hl : w.sys.allList ≠ []) :
    Alone p w.sys (w'.sys.goto p .remove) := by
  obtain ⟨e, es, he⟩ := List.exists_cons_of_ne_nil hl
  have hhead : w.sys.allList.head? = some e := by rw [he, List.head?_cons]
  obtain ⟨t, ht⟩ := threadGetByTid_some (w.sys.parentTid p) hl
  have hfound : Alone p w.sys (w.sys.goto p (.found t .leave)) := by
    have hlist : listFrom e w.sys.allList = e :: es := by rw [listFrom_head hhead, he]
    refine .head (.leave hp hhead) (search_alone hn hlist ?_)
    rw [← he]
    exact ht
  have hself : (w.sys.goto p (.found t .leave)).pc p = .found t .leave := Sys.goto_pc_self ..
  rcases processExit_cases h with ⟨t', ht', hnil, rfl⟩ | ⟨hne, hg⟩
  · rw [ht, Option.some.injEq] at ht'
    have hstep := Step.childless hself (ht' ▸ hnil)
    rw [goto_goto] at hstep
    exact hfound.tail hstep
  · have hwoken : w.sys.woken p = w.sys.setThread t fun r =>
        { r with childThreadList := upChild (w.sys.tid p) r.childThreadList } := by
      rw [Sys.woken, ht]
    have hwake : Step (w.sys.goto p (.found t .leave)) p ((w.sys.woken p).goto p .release) := by
      rw [hwoken, ← goto_goto _ p (.found t .leave) .release]
      exact .wake hself (hne t ht)
    have hrel : Step ((w.sys.woken p).goto p .release) p (w'.sys.goto p .remove) := by
      rw [hg.sys, ← goto_goto _ p .release .remove]
      exact .release (Sys.goto_pc_self ..)
    exact (hfound.tail hwake).tail hrel

/-! ## When it gives everything back -/

/-- `process_exit` gives back all that the process holds, and changes nothing else but its record
with its parent, exactly if the process has no open files and no current directory, and does not
return early while it holds something. The call runs alone: no other thread exits between the lookup
of the parent and the wake-up. -/
theorem process_exit_releases (h : processExit p w = .ok ((), w')) :
    Released w p w' ↔ ExitsClean w p := by
  rcases processExit_cases h with ⟨t, ht, hnil, rfl⟩ | ⟨hne, hg⟩
  · exact released_early ht hnil
  · exact released_late hne hg

/-- A process whose executable is the inode 0, run by the main thread. -/
def programWorld (fdList : List FileDescriptor) : World where
  sys := firstProgram
  held p := if p = 2 then ⟨some 0, some ⟨0, 52, true⟩, fdList⟩ else ⟨none, none, []⟩
  pagedirs := [0]
  fs := { Filesys.boot (Env.calm 0) (Disk.blank 32) with
    openInodes := [⟨0, 5, 1, false, 1, Bytes.zeros⟩, ⟨1, 6, 1, false, 0, Bytes.zeros⟩]
    nextAddr := 2 }

/-- A process without open files gives back all it holds. -/
theorem process_exit_releases_program : ∃ w', processExit 2 (programWorld []) = .ok ((), w') ∧
    Released (programWorld []) 2 w' := by
  have hfound : ∀ t, threadGetByTid firstProgram (firstProgram.parentTid 2) = some t → t = 0 :=
    fun t h => (Option.some.inj (show some 0 = some t from h)).symm
  refine ⟨_, rfl, (process_exit_releases rfl).mpr ⟨rfl, rfl, fun t ht hnil => ?_, fun t _ ht _ => ?_⟩⟩
  · rw [hfound t ht] at hnil
    cases hnil
  · rw [hfound t ht]
    rfl

/-- An open file of a process stays open after it. -/
theorem open_file_leaks :
    ¬ ∀ w p w', processExit p w = .ok ((), w') → Released w p w' := by
  intro hall
  obtain ⟨n, hn, hn'⟩ := (hall (programWorld [⟨2, ⟨1, 0, false⟩, none⟩]) 2 _ rfl).counts 1 (by decide)
  cases hn
  exact absurd hn' (by decide)

end

end Pintos.Process

import Pintos.Userprog.Syscall
import Pintos.Properties.OpenInodes

/-!
# The locks of the file system

* `no_lock_dies` — as long as what a call touches with a lock held is there, no thread ends
  with `file_lock` or `buffer_cache_lock` held.
* `filesys_exclusive` — as long as a thread that goes into the file system without `file_lock` is
  alone there, at most one thread is there at a time, and a handle points to an inode in memory.

Both rest on one fact about the text of the calls, `call_disciplined`: every part that takes a
lock gives it back.
-/

namespace Pintos.Userprog

open Pintos.Logic

variable {m : Memory} {s : Seen} {c : Call} {p q : Program} {held : LockName → Bool}
  {inside : Option Way}

/-! ## The text of the calls -/

/-- No lock. -/
def noLocks : LockName → Bool := fun _ => false

/-- What holds along every program, also when its process has died with a lock. -/
structure Orderly (held : LockName → Bool) (inside : Option Way)
    (next : Option (Instr LockName Way Action InodeWork)) : Prop where
  guarded : inside = some .guarded → held .fileLock = true
  /-- Only locks that are held are released. -/
  releases : ∀ l, next = some (.release l) → held l = true
  /-- The inodes are worked on in the file system only. -/
  works : ∀ b, next = some (.work b) → inside ≠ none

/-- What holds along the programs of the calls, which release all their locks. -/
structure Disciplined (held : LockName → Bool) (inside : Option Way)
    (next : Option (Instr LockName Way Action InodeWork)) : Prop
    extends Orderly held inside next where
  ends : next = none → inside = none ∧ ∀ l, held l = false

theorem Disciplined.act (h : inside = some .guarded → held .fileLock = true) (a : Action) :
    Disciplined held inside (some (.act a)) :=
  ⟨⟨h, by simp, by simp⟩, by simp⟩

/-- A part that can stand anywhere in the file system, where `buffer_cache_lock` is free. -/
def Quiet (p : Program) : Prop :=
  ∀ held inside, held .bufferCacheLock = false → inside ≠ none →
    (inside = some .guarded → held .fileLock = true) → Through Disciplined held inside p held inside

theorem quiet_nil : Quiet [] := fun _ _ _ _ _ => .nil

theorem Quiet.append (hp : Quiet p) (hq : Quiet q) : Quiet (p ++ q) :=
  fun held inside hc hin hg => (hp held inside hc hin hg).append (hq held inside hc hin hg)

theorem Quiet.cons {i : Instr LockName Way Action InodeWork} (hi : Quiet [i]) (hp : Quiet p) :
    Quiet (i :: p) :=
  hi.append hp

theorem quiet_acts (as : List Action) : Quiet (acts as) := fun _ _ _ _ hg =>
  .acts fun a _ => .act hg a

theorem quiet_work (b : InodeWork) : Quiet [.work b] := fun _ _ _ hin hg =>
  .work ⟨⟨hg, by simp, fun _ _ => hin⟩, by simp⟩

theorem quiet_flatMap {α : Type} {f : α → Program} (hf : ∀ x, Quiet (f x)) (xs : List α) :
    Quiet (xs.flatMap f) := by
  induction xs with
  | nil => exact quiet_nil
  | cons x xs ih => exact (hf x).append ih

theorem quiet_io (copy : List Action) : Quiet (bufferCacheIo copy) := by
  intro held inside hc _ hg
  have hg' : inside = some .guarded →
      Function.update held .bufferCacheLock true .fileLock = true := by
    simpa using hg
  refine .locked ⟨⟨hg, by simp, by simp⟩, by simp⟩ (.acts fun a _ => .act hg' a)
    ⟨⟨hg', ?_, by simp⟩, by simp⟩ hc
  rintro l hl
  obtain rfl : LockName.bufferCacheLock = l := by simpa using hl
  exact Function.update_self _ _ _

theorem quiet_ios (ios : List Bool) : Quiet (bufferCacheIos ios) :=
  quiet_flatMap (fun _ => quiet_io _) ios

theorem quiet_inodeOpen (sector handle : Nat) (found memory : Bool) :
    Quiet (inodeOpen sector handle found memory) := by
  unfold inodeOpen
  refine ((quiet_work _).cons (quiet_work _)).append ?_
  split
  · exact quiet_work _
  · refine (quiet_work _).cons ?_
    split
    · exact (quiet_work _).cons (quiet_io _)
    · exact quiet_nil

theorem quiet_inodeClose (handle : Nat) (last : Bool) (ios : List Bool) :
    Quiet (inodeClose handle last ios) := by
  unfold inodeClose
  refine (quiet_work _).cons ?_
  split
  · exact (quiet_work _).cons ((quiet_ios _).append (quiet_work _))
  · exact quiet_nil

theorem quiet_uses (us : List Use) : Quiet (uses us) := by
  refine quiet_flatMap (fun u => ?_) us
  cases u with
  | io ok => exact quiet_io _
  | deref ok | assert ok => exact quiet_acts _
  | inodeOpen sector handle found memory => exact quiet_inodeOpen _ _ _ _
  | inodeReopen handle handle' => exact quiet_work _
  | inodeClose handle last ios => exact quiet_inodeClose _ _ _

theorem quiet_inDirectory : Quiet (inDirectory s) := (quiet_acts _).append (quiet_uses _)

theorem quiet_byteToSector (n : Nat) (length pos : Int) : Quiet (byteToSector s n length pos) := by
  unfold byteToSector indexToSector
  split_ifs
  · exact quiet_nil
  · exact quiet_nil
  · exact quiet_io _
  · exact (quiet_io _).append (quiet_io _)
  · exact quiet_nil

theorem quiet_readLoop (fuel : Nat) : ∀ (size offset : Int) (buffer : Nat),
    Quiet (readLoop s fuel size offset buffer) := by
  induction fuel with
  | zero => exact fun _ _ _ => quiet_nil
  | succ fuel ih =>
    intro size offset buffer
    rw [readLoop]
    split
    · exact quiet_nil
    · refine (quiet_byteToSector _ _ _).append ?_
      split
      · exact quiet_nil
      split
      · exact (quiet_io _).append (ih _ _ _)
      split
      · exact ((quiet_io _).append (quiet_acts _)).append (ih _ _ _)
      · exact quiet_nil

theorem quiet_writeLoop (length : Int) (fuel : Nat) : ∀ (size offset : Int) (buffer : Nat),
    Quiet (writeLoop s length fuel size offset buffer) := by
  induction fuel with
  | zero => exact fun _ _ _ => quiet_nil
  | succ fuel ih =>
    intro size offset buffer
    have hbounce : ∀ (c : Prop) [Decidable c] (copy : List Action) (r : Program), Quiet r →
        Quiet ((if c then bufferCacheIo [] else []) ++ acts copy ++ bufferCacheIo [] ++ r) := by
      intro c _ copy r hr
      refine Quiet.append (Quiet.append (Quiet.append ?_ (quiet_acts _)) (quiet_io _)) hr
      split
      · exact quiet_io _
      · exact quiet_nil
    rw [writeLoop]
    split
    · exact quiet_nil
    · refine (quiet_byteToSector _ _ _).append ?_
      split
      · exact quiet_nil
      split
      · exact (quiet_io _).append (ih _ _ _)
      split
      · exact hbounce _ _ _ (ih _ _ _)
      · exact quiet_nil

theorem quiet_fileWrite (buffer : Nat) (size : Int) : Quiet (fileWrite s buffer size) := by
  unfold fileWrite
  split
  · exact quiet_nil
  · refine (quiet_byteToSector _ _ _).append ?_
    split
    · refine (quiet_ios _).append ?_
      split
      · exact (quiet_io _).append (quiet_writeLoop _ _ _ _ _)
      · exact quiet_nil
    · exact quiet_writeLoop _ _ _ _ _

theorem quiet_filesysOpen (name : Nat) : Quiet (filesysOpen m s name) := by
  unfold filesysOpen
  split_ifs
  · exact (quiet_acts _).append quiet_nil
  · exact (quiet_acts _).append ((quiet_acts _).append quiet_inDirectory)

theorem quiet_filesysCreate (path initialSize : Nat) :
    Quiet (filesysCreate m s path initialSize) :=
  ((quiet_acts _).append (quiet_acts _)).append quiet_inDirectory

theorem quiet_dirReaddir (name : Nat) : Quiet (dirReaddir s name) := by
  unfold dirReaddir
  split
  · exact (quiet_ios _).append (quiet_acts _)
  · exact (quiet_ios _).append quiet_nil

/-! ### Into the file system, with and without the lock -/

/-- A call into the file system, by a way that the locks held allow. -/
theorem through_inFilesys {way : Way} (hp : Quiet p) (hc : held .bufferCacheLock = false)
    (hg : way = .guarded → held .fileLock = true) :
    Through Disciplined held none (inFilesys way p) held none := by
  have hg' : some way = some .guarded → held .fileLock = true := fun h => hg (Option.some.inj h)
  exact .region ⟨⟨by simp, by simp, by simp⟩, by simp⟩ (hp held (some way) hc (by simp) hg')
    ⟨⟨hg', by simp, by simp⟩, by simp⟩

theorem through_bare (hp : Quiet p) :
    Through Disciplined noLocks none (inFilesys .bare p) noLocks none :=
  through_inFilesys hp rfl fun h => by cases h

theorem through_acts (as : List Action) : Through Disciplined held none (acts as) held none :=
  .acts fun a _ => .act (fun h => by cases h) a

/-- A part of a call that holds `file_lock`. -/
theorem through_locked
    (hp : Through Disciplined (Function.update noLocks .fileLock true) none p
      (Function.update noLocks .fileLock true) none) :
    Through Disciplined noLocks none (locked .fileLock p) noLocks none := by
  refine .locked ⟨⟨by simp, by simp, by simp⟩, by simp⟩ hp
    ⟨⟨by simp, ?_, by simp⟩, by simp⟩ rfl
  rintro l hl
  obtain rfl : LockName.fileLock = l := by simpa using hl
  rfl

theorem through_filesys (hp : Quiet p) :
    Through Disciplined noLocks none (locked .fileLock (inFilesys .guarded p)) noLocks none :=
  through_locked (through_inFilesys hp rfl fun _ => rfl)

/-- `load` takes no lock. -/
theorem through_load : Through Disciplined noLocks none (load s) noLocks none := by
  have hreads : ∀ reads : List (List Bool), Through Disciplined noLocks none
      (reads.flatMap fun ios => inFilesys .bare (bufferCacheIos ios)) noLocks none := by
    intro reads
    induction reads with
    | nil => exact .nil
    | cons ios reads ih => exact (through_bare (quiet_ios _)).append ih
  unfold load
  refine Through.append ?_ (through_bare ?_)
  · split
    · exact (((through_acts _).append (through_bare ((quiet_acts _).append quiet_inDirectory))).append
        (hreads _)).append (through_acts _)
    · exact .nil
  · split
    · exact quiet_acts _
    · split
      · exact quiet_inodeClose _ _ _
      · exact quiet_nil

theorem along_of_through (h : Through Disciplined noLocks none p noLocks none) :
    Along Disciplined noLocks none p :=
  h.along ⟨⟨by simp, by simp, by simp⟩, fun _ => ⟨rfl, fun _ => rfl⟩⟩

/-- Every call gives back the locks it takes. -/
theorem call_disciplined (hp : c.program m s = some p) : Along Disciplined noLocks none p := by
  refine along_of_through ?_
  cases c with
  | exec cmdLine =>
    simp only [Call.program, Option.ite_none_right_eq_some, Option.some.injEq] at hp
    obtain ⟨-, rfl⟩ := hp
    exact through_locked (through_acts _)
  | create file initialSize =>
    simp only [Call.program, Option.ite_none_right_eq_some, Option.some.injEq] at hp
    obtain ⟨-, rfl⟩ := hp
    exact through_filesys (quiet_filesysCreate _ _)
  | remove file =>
    simp only [Call.program, Option.ite_none_right_eq_some, Option.some.injEq] at hp
    obtain ⟨-, rfl⟩ := hp
    exact through_filesys ((quiet_acts _).append quiet_inDirectory)
  | «open» file =>
    simp only [Call.program, Option.ite_none_right_eq_some, Option.some.injEq] at hp
    obtain ⟨-, rfl⟩ := hp
    refine (through_filesys (quiet_filesysOpen _)).append ?_
    split
    · refine ((through_acts _).append (through_bare quiet_nil)).append ?_
      split
      · refine (through_bare (quiet_work _)).append (through_bare ?_)
        split
        · exact quiet_nil
        · exact quiet_inodeClose _ _ _
      · exact .nil
    · exact .nil
  | filesize fd =>
    simp only [Call.program, Option.some.injEq] at hp
    subst hp
    split
    · exact through_filesys quiet_nil
    · exact .nil
  | read fd buffer length =>
    rw [Call.program] at hp
    split_ifs at hp <;> cases hp
    · exact .nil
    · exact through_acts _
    · exact through_filesys (quiet_readLoop _ _ _ _)
    · exact .nil
  | write fd buffer length =>
    rw [Call.program] at hp
    split_ifs at hp <;> cases hp
    · exact .nil
    · exact through_acts _
    · exact through_filesys (quiet_fileWrite _ _)
    · exact .nil
  | seek fd position =>
    simp only [Call.program, Option.some.injEq] at hp
    subst hp
    split
    · exact through_filesys (quiet_acts _)
    · exact through_locked .nil
  | tell fd =>
    simp only [Call.program, Option.some.injEq] at hp
    subst hp
    split
    · exact through_filesys quiet_nil
    · exact through_locked .nil
  | close fd =>
    simp only [Call.program, Option.some.injEq] at hp
    subst hp
    split
    · exact through_filesys (quiet_inodeClose _ _ _)
    · exact through_locked .nil
  | chdir dir =>
    simp only [Call.program, Option.ite_none_right_eq_some, Option.some.injEq] at hp
    obtain ⟨-, rfl⟩ := hp
    exact through_filesys ((quiet_acts _).append (quiet_uses _))
  | mkdir dir =>
    simp only [Call.program, Option.ite_none_right_eq_some, Option.some.injEq] at hp
    obtain ⟨-, rfl⟩ := hp
    exact through_filesys (quiet_filesysCreate _ _)
  | readdir fd name =>
    simp only [Call.program, Option.some.injEq] at hp
    subst hp
    split
    · refine (through_bare quiet_nil).append ?_
      split
      · exact through_filesys (quiet_dirReaddir _)
      · exact .nil
    · exact .nil
  | isdir fd =>
    simp only [Call.program, Option.some.injEq] at hp
    subst hp
    exact through_locked ((through_acts _).append (through_inFilesys quiet_nil rfl fun _ => rfl))
  | inumber fd =>
    simp only [Call.program, Option.some.injEq] at hp
    subst hp
    exact through_locked ((through_acts _).append (through_inFilesys quiet_nil rfl fun _ => rfl))
  | startProcess =>
    simp only [Call.program, Option.some.injEq] at hp
    subst hp
    exact through_load

/-- What a program does with a lock held. -/
def lockedActions : (held : LockName → Bool) → Program → List Action
  | _, [] => []
  | held, .acquire l :: p => lockedActions (Function.update held l true) p
  | held, .release l :: p => lockedActions (Function.update held l false) p
  | held, .enter _ :: p => lockedActions held p
  | held, .leave :: p => lockedActions held p
  | held, .work _ :: p => lockedActions held p
  | held, .act a :: p =>
    if held .fileLock || held .bufferCacheLock then a :: lockedActions held p
    else lockedActions held p

/-- A process survives what a program does with a lock held: every byte of the user it touches
is there, and no pointer is null. -/
def Survives (e : Process) (p : Program) : Prop :=
  ∀ a ∈ lockedActions noLocks p, e.memory.effect a ≠ .die

instance (e : Process) (p : Program) : Decidable (Survives e p) :=
  inferInstanceAs (Decidable (∀ a ∈ lockedActions noLocks p, e.memory.effect a ≠ .die))

theorem Survives.along {e : Process} (h : Survives e p) : Along (fun held _ next =>
    ∀ a, next = some (.act a) → (held .fileLock || held .bufferCacheLock) = true →
      e.memory.effect a ≠ .die) noLocks inside p := by
  unfold Survives at h
  generalize noLocks = held at h ⊢
  induction p generalizing held inside with
  | nil => simp [Along]
  | cons i p ih =>
    cases i with
    | act b =>
      rw [lockedActions] at h
      split at h
      · refine ⟨?_, ih _ fun a ha => h a (List.mem_cons_of_mem _ ha)⟩
        rintro a ha -
        obtain rfl : b = a := by simpa using ha
        exact h b List.mem_cons_self
      · next hfree => exact ⟨fun _ _ hheld => absurd hheld hfree, ih _ h⟩
    | _ => exact ⟨by simp, ih _ h⟩

/-- The condition on a call: nothing it touches with a lock held is missing. -/
def Mapped (e : Process) (s : Seen) (c : Call) : Prop :=
  ∀ p, c.program e.memory s = some p → Survives e p

/-- What holds along the programs of such calls. -/
def Kept (e : Process) (dead : Bool) : Cond LockName Way Action InodeWork := fun held inside next =>
  Disciplined held inside next ∧ (dead = true → held .fileLock = false) ∧
  ∀ a, next = some (.act a) → (held .fileLock || held .bufferCacheLock) = true →
    e.memory.effect a ≠ .die

/-- A call that finds an open file of 8 bytes. -/
def openFile : Seen where
  length := 8
  fileDesc := true

/-- The file system is entered by one thread at a time. -/
structure Exclusive (k : Kernel) : Prop where
  alone : k.Alone
  /-- The accesses of a thread are atomic: since it has come in, it is the only one that has
  changed the open inodes. -/
  atomic : ∀ t, k.inside t ≠ none →
    inodeRegion.replay (k.done t) (.none, k.found t) = some (k.vars t, k.shared)
  /-- As long as no handle is used after it has been closed, one that is open points to an inode
  in memory. -/
  handles : k.shared.misused = false →
    ∀ inode, k.shared.handles inode ≠ [] → k.shared.freed inode = false

/-- The condition on a way in: a thread without `file_lock` is there by itself. -/
def ByItself (k : Kernel) (t : Nat) (way : Way) : Prop := Apart (· = .bare) k t way

/-- A part of the end of a process, which may have died with a lock. -/
def Ending (p : Program) : Prop :=
  ∀ held, ∃ held', Through Orderly held (some .bare) p held' (some .bare)

theorem Ending.append (hp : Ending p) (hq : Ending q) : Ending (p ++ q) := by
  intro held
  obtain ⟨held', hp⟩ := hp held
  obtain ⟨held'', hq⟩ := hq held'
  exact ⟨held'', hp.append hq⟩

theorem Ending.cons {i : Instr LockName Way Action InodeWork} (hi : Ending [i]) (hp : Ending p) :
    Ending (i :: p) :=
  hi.append hp

theorem ending_acts (as : List Action) : Ending (acts as) := fun held =>
  ⟨held, .acts fun _ _ => ⟨by simp, by simp, by simp⟩⟩

theorem ending_work (b : InodeWork) : Ending [.work b] := fun held =>
  ⟨held, .work ⟨by simp, by simp, by simp⟩⟩

/-- A lock that the process has died with stays behind, and this one waits for it. -/
theorem ending_io (copy : List Action) : Ending (bufferCacheIo copy) := by
  intro held
  refine ⟨Function.update held .bufferCacheLock false, fun q hq => ⟨⟨by simp, by simp, by simp⟩, ?_⟩⟩
  show Along Orderly _ _ ((acts copy ++ [.release .bufferCacheLock]) ++ q)
  rw [List.append_assoc]
  refine Through.acts (fun _ _ => ⟨by simp, by simp, by simp⟩) _ ⟨⟨by simp, ?_, by simp⟩, ?_⟩
  · rintro l hl
    obtain rfl : LockName.bufferCacheLock = l := by simpa using hl
    exact Function.update_self _ _ _
  · rwa [Function.update_idem]

theorem ending_ios (ios : List Bool) : Ending (bufferCacheIos ios) := by
  induction ios with
  | nil => exact ending_acts []
  | cons ok ios ih => exact (ending_io _).append ih

theorem ending_inodeClose (handle : Nat) (last : Bool) (ios : List Bool) :
    Ending (inodeClose handle last ios) := by
  unfold inodeClose
  refine (ending_work _).cons ?_
  split
  · exact (ending_work _).cons ((ending_ios _).append (ending_work _))
  · exact ending_acts []

/-- Into the file system at the end. -/
theorem Ending.inFilesys (hp : Ending p) (held : LockName → Bool) :
    ∃ held', Through Orderly held none (inFilesys .bare p) held' none := by
  obtain ⟨held', hp⟩ := hp held
  refine ⟨held', fun q hq => ⟨⟨by simp, by simp, by simp⟩, ?_⟩⟩
  show Along Orderly held (some .bare) ((p ++ [.leave]) ++ q)
  rw [List.append_assoc]
  exact hp _ ⟨⟨by simp, by simp, by simp⟩, hq⟩

theorem processExit_orderly (e : Process) (held : LockName → Bool) :
    Along Orderly held none (processExit e) := by
  have hend : ∀ held, Along Orderly held none [] := fun held => ⟨by simp, by simp, by simp⟩
  unfold processExit
  split
  · obtain ⟨held', hallow⟩ := (ending_acts [.assert e.denied]).inFilesys held
    obtain ⟨held'', hclose⟩ := (ending_inodeClose e.handle e.last e.ios).inFilesys held'
    exact (hallow.append hclose).along (hend held'')
  · exact hend held

/-- What holds along the programs of the threads. -/
def Ordered (dead : Bool) : Cond LockName Way Action InodeWork := fun held inside next =>
  Orderly held inside next ∧
  (dead = false → next = none → inside = none ∧ ∀ l, held l = false)

theorem ordered_processExit (e : Process) (held : LockName → Bool) :
    Along (Ordered true) held none (processExit e) :=
  (processExit_orderly e held).mono fun _ _ _ h => ⟨h, by simp⟩

theorem ordered_inductive : Inductive (fun e => e.memory.effect) processExit
    (Starts fun _ _ _ => True) (fun _ => True) fun _ => Ordered where
  start := by
    rintro e p ⟨s, c, -, hp⟩
    exact (call_disciplined hp).mono fun _ _ _ h => ⟨h.toOrderly, fun _ => h.ends⟩
  exit := fun e _ => ordered_processExit e _
  done := fun _ _ _ h => h.2 rfl rfl
  release := fun _ _ _ _ l h => h.1.releases l rfl
  die := fun e _ held _ _ _ _ => ordered_processExit e held

/-- In every run in which a thread that goes into the file system without `file_lock` is there by
itself, one thread is there at a time. -/
theorem filesys_exclusive {k : Kernel}
    (h : Runs (fun _ _ _ => True) (fun _ => True) ByItself k) : Exclusive k := by
  have hidle : ∀ _ : Process, Ordered false (fun _ => false) none none := fun _ =>
    ⟨⟨by simp, by simp, by simp⟩, fun _ _ => ⟨rfl, fun _ => rfl⟩⟩
  have hlock : ∀ (_ : Process) dead held way next, Ordered dead held (some way) next →
      ¬ way = .bare → held .fileLock = true := by
    rintro - dead held (- | -) next hord hbare
    · exact hord.1.guarded rfl
    · exact absurd rfl hbare
  have hserial : k.Serial inodeRegion Handled := Reachable.serial
    ordered_inductive hidle (fun _ _ _ hgo => hgo) hlock
    (fun _ _ _ _ b hord => hord.1.works b rfl) inodeWork_keeps h
  exact ⟨hserial.alone, hserial.visit, fun hused => (hserial.kept hused).1.alive⟩

/-- A state of such a run in which no thread is in the file system. -/
def Between (k : Kernel) : Prop :=
  Runs (fun _ _ _ => True) (fun _ => True) ByItself k ∧ ∀ u, k.inside u = none

theorem byItself_of_alone (k : Kernel) (t : Nat) (way : Way) (h : ∀ u, u ≠ t → k.inside u = none) :
    ByItself k t way := fun _ => h

/-- A process with the string `"a"` in its memory, whose executable is open. -/
def running (handle : Nat) : Process where
  memory := {
    accessAt := fun _ => some .readWrite
    byteAt := fun addr => if addr = 0x8048000 then 97 else 0 }
  runningFile := true
  handle := handle
  last := true

/-- A thread that loads the executable in sector 5. -/
def executable (handle : Nat) (found : Bool) : Seen where
  uses := [.inodeOpen 5 handle found true]
  reads := [[true]]
  found := true
  loaded := true
  denied := true

/-- A call that opens the file in sector 7, or closes it. -/
def fileInSector7 : Seen where
  uses := [.inodeOpen 7 3 false true]
  fileDesc := true
  found := true
  handle := 3
  last := true

/-- Two processes are loaded from one executable and one of them opens a file. It is about to free the
inode of the file, while the other one waits to get into the file system. -/
theorem filesys_exclusive_wait : ∃ k : Kernel, k.inside 0 = some .guarded ∧
    k.vars 0 = .removed 2 ∧ k.shared.handles 1 = [2, 1] ∧
    (k.prog 1).head? = some (.acquire .fileLock) ∧ Exclusive k := by
  have h₀ : Between _ := ⟨.init (running 1), fun _ => rfl⟩
  have h₁ := h₀.1.step rfl (.start 0 (running 1) _ rfl rfl
    ⟨executable 1 false, .startProcess, trivial, rfl⟩)
  have h₂ : Between _ := Reachable.visit (t := 0) (n := 23) byItself_of_alone ⟨h₁, h₀.2⟩ rfl rfl
  have h₃ := h₂.1.step rfl (.start 1 (running 2) _ rfl rfl
    ⟨executable 2 true, .startProcess, trivial, rfl⟩)
  have h₄ : Between _ := Reachable.visit (t := 1) (n := 19) byItself_of_alone ⟨h₃, h₂.2⟩ rfl rfl
  have h₅ := h₄.1.step rfl (.start 0 (running 1) _ rfl rfl
    ⟨fileInSector7, .open 0x8048000, trivial, rfl⟩)
  have h₆ : Between _ := Reachable.visit (t := 0) (n := 26) byItself_of_alone ⟨h₅, h₄.2⟩ rfl rfl
  have h₇ := (h₆.1.step rfl (.start 0 (running 1) _ rfl rfl
    ⟨fileInSector7, .close 2, trivial, rfl⟩)).step rfl (.start 1 (running 2) _ rfl rfl
    ⟨fileInSector7, .open 0x8048000, trivial, rfl⟩)
  have h₈ := Reachable.solo (t := 0) (n := 4) byItself_of_alone h₇ (fun u _ => h₆.2 u) rfl
  exact ⟨_, rfl, rfl, rfl, rfl, filesys_exclusive h₈.1⟩

/-- A process exits and closes its executable for the last time. A new thread loads the executable
meanwhile, and has its inode when that is freed. -/
theorem load_enters_beside : ¬ ∀ k : Kernel,
    Runs (fun _ _ _ => True) (fun _ => True) (fun _ _ _ => True) k → Exclusive k := by
  intro hall
  have h₀ : Runs (fun _ _ _ => True) (fun _ => True) (fun _ _ _ => True) _ := .init (running 1)
  have h₁ := h₀.step rfl (.start 0 (running 1) _ rfl rfl
    ⟨executable 1 false, .startProcess, trivial, rfl⟩)
  have h₂ := h₁.schedule (fun _ _ _ => trivial) (List.replicate 23 0) rfl
  have h₃ := (h₂.step rfl (.exit 0 (running 1) rfl rfl trivial)).step rfl
    (.start 1 (running 2) _ rfl rfl ⟨executable 2 true, .startProcess, trivial, rfl⟩)
  -- the count is 0, the other thread finds the inode in the list, and it is freed
  have h₄ := h₃.schedule (fun _ _ _ => trivial)
    (List.replicate 5 0 ++ List.replicate 9 1 ++ List.replicate 2 0) rfl
  have hfreed := (hall _ h₄).handles rfl 1 (List.cons_ne_nil 2 [])
  exact Bool.noConfusion hfreed

end Pintos.Userprog

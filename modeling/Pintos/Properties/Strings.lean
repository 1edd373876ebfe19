import Pintos.Userprog.Syscall

/-!
# Strings of the user

`exec` has its string checked by `validate_string`, which asks `validate_addr` for four bytes at
each of its characters. The other calls that take a string ask for its first four bytes only, and
the file system reads it to its end.

* `validateString_iff` — what `validate_string` accepts.
* `string_checked_iff` — when the check of a call is right about a string.
-/

namespace Pintos.Userprog

open Pintos.Logic

variable {m : Memory} {s : Seen} {a : Action} {p q : Program} {str n : Nat}

/-! ## Strings in memory -/

/-- A byte of the user that is mapped. -/
def UserByte (m : Memory) (addr : Nat) : Prop := addr < physBase ∧ (m.access addr).isSome

/-- A string of `n` characters before its `'\0'`, all of them and the `'\0'` in bytes of the user
that are mapped. -/
structure IsString (m : Memory) (str n : Nat) : Prop where
  mapped : ∀ i ≤ n, UserByte m (str + i)
  ends : m.byte (str + n) = 0
  first : ∀ i < n, m.byte (str + i) ≠ 0

theorem IsString.tail (h : IsString m str (n + 1)) : IsString m (str + 1) n := by
  have hshift : ∀ i, str + 1 + i = str + (i + 1) := fun i => by omega
  constructor
  · intro i hi
    rw [hshift]
    exact h.mapped (i + 1) (Nat.succ_le_succ hi)
  · rw [hshift]
    exact h.ends
  · intro i hi
    rw [hshift]
    exact h.first (i + 1) (Nat.succ_lt_succ hi)

theorem IsString.cons (hb : UserByte m str) (hne : m.byte str ≠ 0) (h : IsString m (str + 1) n) :
    IsString m str (n + 1) := by
  have hshift : ∀ i, str + (i + 1) = str + 1 + i := fun i => by omega
  constructor
  · intro i hi
    cases i with
    | zero => exact hb
    | succ i =>
      rw [hshift]
      exact h.mapped i (Nat.le_of_succ_le_succ hi)
  · rw [hshift]
    exact h.ends
  · intro i hi
    cases i with
    | zero => exact hne
    | succ i =>
      rw [hshift]
      exact h.first i (Nat.lt_of_succ_lt_succ hi)

theorem IsString.nil (hb : UserByte m str) (hz : m.byte str = 0) : IsString m str 0 where
  mapped i hi := by rwa [Nat.le_zero.mp hi]
  ends := hz
  first i hi := absurd hi (Nat.not_lt_zero i)

/-- `strlen` finds the end of a string. -/
theorem IsString.strlenFrom_eq (h : IsString m str n) : ∀ {fuel}, n < fuel →
    strlenFrom m fuel str = n := by
  intro fuel hfuel
  induction n generalizing str fuel with
  | zero =>
    cases fuel with
    | zero => cases hfuel
    | succ fuel =>
      have hz : m.byte str = 0 := h.ends
      rw [strlenFrom, if_pos hz]
  | succ n ih =>
    cases fuel with
    | zero => cases hfuel
    | succ fuel =>
      have hne : m.byte str ≠ 0 := h.first 0 (Nat.succ_pos n)
      rw [strlenFrom, if_neg hne, ih h.tail (Nat.lt_of_succ_lt_succ hfuel)]

theorem IsString.strlen_eq (h : IsString m str n) : strlen m str = n := by
  have hend := (h.mapped n (Nat.le_refl n)).1
  have hbase : physBase < 2 ^ 32 := by decide
  exact h.strlenFrom_eq (by omega)

/-! ## The checks -/

theorem validateAddr_iff (m : Memory) (ptr : Nat) :
    validateAddr m ptr = true ↔ ptr ≠ 0 ∧ ∀ i < 4, UserByte m (ptr + i) := by
  simp [validateAddr, isUserVaddr, UserByte]

/-- The loop of `validate_string`, `none` as long as it has not ended. -/
def validateStringLoop (m : Memory) : (fuel : Nat) → Nat → Option Bool
  | 0, _ => none
  | fuel + 1, ch =>
    if validateAddr m ch then
      if m.byte ch == 0 then some true else validateStringLoop m fuel (ch + 1)
    else some false

/-- The loop ends before `PHYS_BASE`. -/
theorem validateStringLoop_ends (m : Memory) (fuel ch : Nat) (h : physBase ≤ ch + fuel) :
    validateStringLoop m (fuel + 1) ch = some (validateStringFrom m fuel ch) := by
  induction fuel generalizing ch with
  | zero =>
    have hkernel : ¬ validateAddr m ch = true := fun hv => by
      have hlt := (((validateAddr_iff m ch).mp hv).2 0 (by decide)).1
      omega
    rw [validateStringLoop, if_neg hkernel, validateStringFrom]
  | succ fuel ih =>
    rw [validateStringLoop, validateStringFrom]
    split
    · rw [ih (ch + 1) (by omega)]
      split
      · next hz => rw [hz, Bool.true_or]
      · next hz => rw [Bool.eq_false_iff.mpr hz, Bool.false_or]
    · rfl

theorem validateStringFrom_iff (m : Memory) (fuel ch : Nat) (h : physBase ≤ ch + fuel) :
    validateStringFrom m fuel ch = true ↔
      ∃ n, IsString m ch n ∧ ch ≠ 0 ∧ ∀ i < 3, UserByte m (ch + n + 1 + i) := by
  induction fuel generalizing ch with
  | zero =>
    rw [validateStringFrom]
    constructor
    · intro hf
      cases hf
    · rintro ⟨n, hstr, -⟩
      have hlt := (hstr.mapped 0 (Nat.zero_le n)).1
      omega
  | succ fuel ih =>
    have ih := ih (ch + 1) (by omega)
    rw [validateStringFrom]
    constructor
    · intro hv
      split at hv
      · next haddr =>
        obtain ⟨hnull, hbytes⟩ := (validateAddr_iff m ch).mp haddr
        rw [Bool.or_eq_true, ih] at hv
        rcases hv with hz | ⟨n, hstr, -, hrest⟩
        · refine ⟨0, .nil (hbytes 0 (by decide)) (by simpa using hz), hnull, fun i hi => ?_⟩
          have hb := hbytes (i + 1) (by omega)
          rwa [show ch + 0 + 1 + i = ch + (i + 1) by omega]
        · by_cases hz : m.byte ch = 0
          · refine ⟨0, .nil (hbytes 0 (by decide)) hz, hnull, fun i hi => ?_⟩
            have hb := hbytes (i + 1) (by omega)
            rwa [show ch + 0 + 1 + i = ch + (i + 1) by omega]
          · refine ⟨n + 1, hstr.cons (hbytes 0 (by decide)) hz, hnull, fun i hi => ?_⟩
            rw [show ch + (n + 1) + 1 + i = ch + 1 + n + 1 + i by omega]
            exact hrest i hi
      · cases hv
    · rintro ⟨n, hstr, hnull, hrest⟩
      have hbytes : ∀ i < 4, UserByte m (ch + i) := by
        intro i hi
        by_cases hin : i ≤ n
        · exact hstr.mapped i hin
        · rw [show ch + i = ch + n + 1 + (i - n - 1) by omega]
          exact hrest _ (by omega)
      rw [if_pos ((validateAddr_iff m ch).mpr ⟨hnull, hbytes⟩), Bool.or_eq_true, ih]
      cases n with
      | zero => exact .inl (by simpa using hstr.ends)
      | succ n =>
        refine .inr ⟨n, hstr.tail, Nat.succ_ne_zero ch, fun i hi => ?_⟩
        rw [show ch + 1 + n + 1 + i = ch + (n + 1) + 1 + i by omega]
        exact hrest i hi

/-- `validate_string` accepts the strings that three more bytes of the user come after. -/
theorem validateString_iff (m : Memory) (str : Nat) : validateString m str = true ↔
    ∃ n, IsString m str n ∧ str ≠ 0 ∧ ∀ i < 3, UserByte m (str + n + 1 + i) :=
  validateStringFrom_iff m _ str (by omega)

/-! ## The calls -/

/-- A call that takes a string. -/
inductive StringCall where
  | exec
  | create (initialSize : Nat)
  | remove
  | open
  | chdir
  | mkdir

/-- The call for the string at `str`. -/
def StringCall.call (str : Nat) : StringCall → Call
  | .exec => .exec str
  | .create initialSize => .create str initialSize
  | .remove => .remove str
  | .open => .open str
  | .chdir => .chdir str
  | .mkdir => .mkdir str

/-- The action at which a program stops. -/
def stops (m : Memory) : Program → Option Action
  | [] => none
  | .act a :: p => if m.effect a = .next then stops m p else some a
  | _ :: p => stops m p

/-- The process is killed because of a pointer to a string: a check calls `exit (-1)`, or there is a
page fault where the kernel reads the string. -/
def Killed (m : Memory) (s : Seen) (c : StringCall) (str : Nat) : Prop :=
  ∀ p, (c.call str).program m s = some p → ∃ addr, stops m p = some (.load addr)

/-- A call treats a pointer to a string as it should: it ends the process for the strings that are
not all in mapped bytes of the user, the check ends, and the kernel does not read a byte that is
not there. -/
structure Checked (m : Memory) (s : Seen) (c : StringCall) (str : Nat) : Prop where
  killed : Killed m s c str ↔ ¬ ∃ n, IsString m str n
  ends : ∃ fuel, validateStringLoop m fuel str = some (validateString m str)
  unread : ∀ p addr, (c.call str).program m s = some p → stops m p ≠ some (.load addr)

/-- When it does. -/
def Checkable (m : Memory) (str : Nat) : StringCall → Prop
  | .exec => ∀ n, IsString m str n → str ≠ 0 ∧ ∀ i < 3, UserByte m (str + n + 1 + i)
  | _ => (∃ n, IsString m str n) ↔ str ≠ 0 ∧ ∀ i < 4, UserByte m (str + i)

theorem stops_mem (h : stops m p = some a) : .act a ∈ p ∧ m.effect a ≠ .next := by
  induction p with
  | nil => cases h
  | cons i p ih =>
    cases i with
    | act b =>
      rw [stops] at h
      split at h
      · exact ⟨List.mem_cons_of_mem _ (ih h).1, (ih h).2⟩
      · next hb =>
        cases h
        exact ⟨List.mem_cons_self, hb⟩
    | _ => exact ⟨List.mem_cons_of_mem _ (ih h).1, (ih h).2⟩

/-- A read that stops a program is of a byte that is not mapped. -/
theorem stops_load {addr : Nat} (h : stops m p = some (.load addr)) :
    ¬ (m.access addr).isSome := by
  intro hs
  have hne := (stops_mem h).2
  rw [Memory.effect, if_pos hs] at hne
  exact hne rfl

/-- A part that reads bytes of the string only. -/
def Reads (m : Memory) (str : Nat) (p : Program) : Prop :=
  ∀ addr, .act (.load addr) ∈ p → ∃ i ≤ strlen m str, addr = str + i

theorem Reads.append (hp : Reads m str p) (hq : Reads m str q) : Reads m str (p ++ q) :=
  fun addr h => (List.mem_append.mp h).elim (hp addr) (hq addr)

theorem reads_locked {lock : LockName} (h : Reads m str p) : Reads m str (locked lock p) := by
  intro addr ha
  simp only [locked, List.cons_append, List.mem_cons, List.mem_append, List.not_mem_nil,
    reduceCtorEq, false_or, or_false] at ha
  exact h addr ha

theorem reads_inFilesys {way : Way} (h : Reads m str p) : Reads m str (inFilesys way p) := by
  intro addr ha
  simp only [inFilesys, List.cons_append, List.mem_cons, List.mem_append, List.not_mem_nil,
    reduceCtorEq, false_or, or_false] at ha
  exact h addr ha

theorem reads_nil : Reads m str [] := fun _ h => absurd h List.not_mem_nil

theorem reads_acts {as : List Action}
    (h : ∀ addr, .load addr ∈ as → ∃ i ≤ strlen m str, addr = str + i) :
    Reads m str (acts as) := by
  intro addr ha
  simp only [acts, List.mem_map, Instr.act.injEq, exists_eq_right] at ha
  exact h addr ha

theorem reads_ios (ios : List Bool) : Reads m str (bufferCacheIos ios) := by
  intro addr h
  simp [bufferCacheIos, bufferCacheIo, locked, acts] at h

theorem reads_work (b : InodeWork) : Reads m str [.work b] := by
  intro addr h
  simp at h

theorem reads_inodeOpen (sector handle : Nat) (found memory : Bool) :
    Reads m str (inodeOpen sector handle found memory) := by
  intro addr h
  unfold inodeOpen at h
  split_ifs at h <;> simp [bufferCacheIo, locked, acts] at h

theorem reads_inodeClose (handle : Nat) (last : Bool) (ios : List Bool) :
    Reads m str (inodeClose handle last ios) := by
  intro addr h
  unfold inodeClose at h
  split at h
  · simp only [List.cons_append, List.mem_cons, List.mem_append, List.not_mem_nil, reduceCtorEq,
      false_or, or_false] at h
    exact reads_ios ios addr h
  · simp at h

theorem reads_uses (us : List Use) : Reads m str (uses us) := by
  intro addr h
  obtain ⟨u, -, hu⟩ := List.mem_flatMap.mp h
  cases u with
  | io ok => exact reads_ios [ok] addr (List.mem_append_left _ hu)
  | deref ok | assert ok => simp [Use.program, acts] at hu
  | inodeOpen sector handle found memory => exact reads_inodeOpen _ _ _ _ addr hu
  | inodeReopen handle handle' => exact reads_work _ addr hu
  | inodeClose handle last ios => exact reads_inodeClose _ _ _ addr hu

/-- The actions that read the string are `readString` and reads of its first byte. -/
theorem load_readString {addr : Nat} (h : .load addr ∈ readString m str) :
    ∃ i ≤ strlen m str, addr = str + i := by
  simp only [readString, loads, List.mem_map, List.mem_range, Action.load.injEq] at h
  obtain ⟨i, hi, rfl⟩ := h
  exact ⟨i, Nat.le_of_lt_succ hi, rfl⟩

theorem load_nameResolution {addr : Nat} (h : .load addr ∈ nameResolution m s str) :
    ∃ i ≤ strlen m str, addr = str + i := by
  simp only [nameResolution, List.mem_append, List.mem_cons, List.not_mem_nil,
    reduceCtorEq, or_false, false_or] at h
  rcases h with (h | h) | h
  · exact load_readString h
  · exact load_readString h
  · split at h
    · obtain rfl : addr = str := by simpa using h
      exact ⟨0, Nat.zero_le _, rfl⟩
    · cases h

theorem reads_inDirectory : Reads m str (inDirectory s) :=
  (reads_acts fun addr h => by simp at h).append (reads_uses _)

theorem reads_filesysCreate (initialSize : Nat) :
    Reads m str (filesysCreate m s str initialSize) := by
  refine ((reads_acts fun addr h => ?_).append (reads_acts fun addr h => ?_)).append
    reads_inDirectory
  · rcases List.mem_append.mp h with h | h
    · exact (List.mem_append.mp h).elim load_readString load_readString
    · exact load_nameResolution h
  · split at h <;> simp at h

theorem reads_filesysRemove : Reads m str (filesysRemove m s str) := by
  refine (reads_acts fun addr h => ?_).append reads_inDirectory
  exact (List.mem_append.mp h).elim load_readString load_nameResolution

theorem reads_filesysOpen : Reads m str (filesysOpen m s str) := by
  refine (reads_acts fun addr h => load_readString h).append ?_
  split
  · exact reads_nil
  · exact (reads_acts fun addr h => load_nameResolution h).append reads_inDirectory

theorem reads_filesysCd : Reads m str (filesysCd m s str) := by
  refine (reads_acts fun addr h => ?_).append (reads_uses _)
  simp only [List.mem_append, List.mem_cons, List.not_mem_nil, reduceCtorEq,
    Action.load.injEq, or_false, false_or] at h
  rcases h with (h | h) | rfl
  · exact load_readString h
  · exact load_readString h
  · exact ⟨0, Nat.zero_le _, rfl⟩

theorem load_processExecute {addr : Nat} (h : .load addr ∈ processExecute m s str) :
    ∃ i ≤ strlen m str, addr = str + i := by
  unfold processExecute at h
  split at h
  · cases h
  · rcases List.mem_append.mp h with h | h
    · exact load_readString h
    split at h
    · cases h
    · simp only [List.mem_append, List.mem_cons, List.mem_map, reduceCtorEq, and_false,
        exists_false, or_false] at h
      exact load_readString h

/-- The check that a call makes. -/
def StringCall.check (m : Memory) (str : Nat) : StringCall → Bool
  | .exec => validateString m str
  | _ => validateAddr m str

/-- A call goes on if its check does, and reads bytes of the string only, but for `open`, which
uses what it has found after that. -/
theorem program_cases (m : Memory) (s : Seen) (c : StringCall) (str : Nat) :
    if c.check m str then ∃ p, (c.call str).program m s = some p ∧ Reads m str p
    else (c.call str).program m s = none := by
  cases c with
  | exec =>
    simp only [StringCall.check, StringCall.call, Call.program]
    split
    · exact ⟨_, rfl, reads_locked (reads_acts fun addr h => load_processExecute h)⟩
    · rfl
  | create initialSize =>
    simp only [StringCall.check, StringCall.call, Call.program]
    split
    · exact ⟨_, rfl, reads_locked (reads_inFilesys (reads_filesysCreate initialSize))⟩
    · rfl
  | remove =>
    simp only [StringCall.check, StringCall.call, Call.program]
    split
    · exact ⟨_, rfl, reads_locked (reads_inFilesys reads_filesysRemove)⟩
    · rfl
  | «open» =>
    simp only [StringCall.check, StringCall.call, Call.program]
    split
    · refine ⟨_, rfl, (reads_locked (reads_inFilesys reads_filesysOpen)).append ?_⟩
      split
      · refine ((reads_acts fun addr h => ?_).append (reads_inFilesys reads_nil)).append ?_
        · simp at h
        · split
          · refine (reads_inFilesys (reads_work _)).append (reads_inFilesys ?_)
            split
            · exact reads_nil
            · exact reads_inodeClose _ _ _
          · exact reads_nil
      · exact reads_nil
    · rfl
  | chdir =>
    simp only [StringCall.check, StringCall.call, Call.program]
    split
    · exact ⟨_, rfl, reads_locked (reads_inFilesys reads_filesysCd)⟩
    · rfl
  | mkdir =>
    simp only [StringCall.check, StringCall.call, Call.program]
    split
    · exact ⟨_, rfl, reads_locked (reads_inFilesys (reads_filesysCreate 0))⟩
    · rfl

/-- The kernel does not stop at a byte of a string. -/
theorem IsString.unread {addr : Nat} (h : IsString m str n) (hp : Reads m str p) :
    stops m p ≠ some (.load addr) := by
  intro hstop
  obtain ⟨i, hi, rfl⟩ := hp addr (stops_mem hstop).1
  rw [h.strlen_eq] at hi
  exact stops_load hstop (h.mapped i hi).2

/-- A call is right about a pointer if its check is. -/
theorem checked_iff_check (m : Memory) (s : Seen) (c : StringCall) (str : Nat) :
    Checked m s c str ↔ ((∃ n, IsString m str n) ↔ c.check m str = true) := by
  have hends : ∃ fuel, validateStringLoop m fuel str = some (validateString m str) :=
    ⟨_, validateStringLoop_ends m (physBase - str) str (by omega)⟩
  have hcases := program_cases m s c str
  by_cases hcheck : c.check m str = true
  · rw [if_pos hcheck] at hcases
    obtain ⟨p, hp, hreads⟩ := hcases
    simp only [hcheck, iff_true]
    constructor
    · intro h
      by_contra hbad
      obtain ⟨addr, hstop⟩ := h.killed.mpr hbad p hp
      exact h.unread p addr hp hstop
    · rintro ⟨n, hstr⟩
      refine ⟨iff_of_false (fun hk => ?_) (not_not.mpr ⟨n, hstr⟩), hends, fun q addr hq => ?_⟩
      · obtain ⟨addr, hstop⟩ := hk p hp
        exact hstr.unread hreads hstop
      · rw [hp] at hq
        cases hq
        exact hstr.unread hreads
  · rw [if_neg hcheck] at hcases
    rw [iff_false_right hcheck]
    constructor
    · intro h
      exact h.killed.mp fun p hp => by rw [hcases] at hp; cases hp
    · intro hbad
      refine ⟨iff_of_true (fun p hp => ?_) hbad, hends, fun p addr hp => ?_⟩
      · rw [hcases] at hp
        cases hp
      · rw [hcases] at hp
        cases hp

theorem checkable_iff_check (m : Memory) (c : StringCall) (str : Nat) :
    Checkable m str c ↔ ((∃ n, IsString m str n) ↔ c.check m str = true) := by
  cases c with
  | exec =>
    rw [StringCall.check, validateString_iff]
    constructor
    · intro h
      constructor
      · rintro ⟨n, hstr⟩
        exact ⟨n, hstr, h n hstr⟩
      · rintro ⟨n, hstr, -⟩
        exact ⟨n, hstr⟩
    · intro h n hstr
      obtain ⟨k, hstr', hrest⟩ := h.mp ⟨n, hstr⟩
      have hnk : n = k := hstr.strlen_eq.symm.trans hstr'.strlen_eq
      rw [hnk]
      exact hrest
  | _ => exact iff_congr Iff.rfl (validateAddr_iff m str).symm

/-- When a call treats a pointer to a string as it should. -/
theorem string_checked_iff (m : Memory) (s : Seen) (c : StringCall) (str : Nat) :
    Checked m s c str ↔ Checkable m str c :=
  (checked_iff_check m s c str).trans (checkable_iff_check m c str).symm

/-- A memory with one page of the user, all of whose bytes are `byte`. -/
def onePage (byte : UInt8) : Memory where
  accessAt addr := if addr.toNat / 4096 = 0x8048 then some .readWrite else none
  byteAt _ := byte

/-- A call that finds no file. -/
def noFile : Seen := {}

/-- `exec` does not take the empty string whose `'\0'` is the last byte of a page, and `create` reads
on after the last four bytes of a page. -/
theorem string_not_checked : ¬ Checked (onePage 0) noFile .exec 0x08048fff ∧
    ¬ Checked (onePage 1) noFile (.create 0) 0x08048ffc := by
  rw [checked_iff_check, checked_iff_check]
  constructor
  · intro h
    have hstr : IsString (onePage 0) 0x08048fff 0 := .nil ⟨by decide, by decide⟩ rfl
    obtain ⟨n, hstr', -, hrest⟩ := (validateString_iff _ _).mp (h.mp ⟨0, hstr⟩)
    obtain rfl : 0 = n := hstr.strlen_eq.symm.trans hstr'.strlen_eq
    have hnext := (hrest 0 (by decide)).2
    revert hnext
    decide
  · intro h
    obtain ⟨n, hstr⟩ := h.mpr (by decide)
    have hend := hstr.ends
    revert hend
    exact (by decide : (1 : UInt8) ≠ 0)

end Pintos.Userprog

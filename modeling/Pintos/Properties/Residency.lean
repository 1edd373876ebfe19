import Pintos.Properties.Evicting

/-!
# Argument checks and resident pages

`validate_addr` asks the page directory, so it rejects a page that has an entry but is in no frame.
`check_read_buffer` brings such a page in instead, and does not return where there is no frame for it.
This module says for each system call when its check comes out the same in two states that differ in
which pages of the process are in frames.
-/

namespace Pintos.Vm

open Pintos.Logic Placement

variable {s s' : State} {cur : Pid} {u v : Upage} {q : SptePtr} {k : Frame} {esp ptr n : Nat}
  {P P' : State → Action → Prop}

namespace State

/-! ## What a process sees of its memory -/

/-- What the page `u` of `cur` holds, wherever it is. There is nothing for a page that was never
loaded and cannot be read whole. -/
def content (s : State) (cur : Pid) (u : Upage) : Option Page :=
  (s.lookup cur u).bind fun q =>
    let e := s.spte q
    match s.pagedirGetPage cur u with
    | some k => some (s.memory k)
    | none =>
      if e.type = .swap then some (s.swap e.swapIdx)
      else if (s.file e.file).left e.readBytes e.offset = e.readBytes then
        some (Bytes.tabulate fun j =>
          if j < e.readBytes then (s.file e.file).content (e.offset + j) else 0)
      else none

theorem content_of_present (hl : s.lookup cur u = some q) (hk : s.pagedirGetPage cur u = some k) :
    s.content cur u = some (s.memory k) := by
  simp only [content, hl, Option.bind_some, hk]

/-- `n` bytes from `ptr` on are user addresses on pages that are present. -/
def Resident (s : State) (cur : Pid) (ptr n : Nat) : Prop :=
  ptr ≠ 0 ∧ ∀ i < n, ptr + i < physBase ∧
    (s.pagedirGetPage cur ((ptr + i) / pgsize)).isSome = true

instance : Decidable (s.Resident cur ptr n) :=
  inferInstanceAs (Decidable (_ ∧ ∀ i < n, _))

theorem validateAddr_iff : s.validateAddr cur ptr = true ↔ s.Resident cur ptr 4 := by
  unfold validateAddr Resident
  rw [Bool.and_eq_true, bne_iff_ne, List.all_eq_true]
  simp only [List.mem_range, Bool.and_eq_true, decide_eq_true_eq]

/-- The byte at an address, wherever its page is. -/
def contentAt (s : State) (cur : Pid) (a : Nat) : Option UInt8 :=
  (s.content cur (a / pgsize)).map (·.byte (a % pgsize))

/-- A string of `n` characters in user memory. -/
def IsString (s : State) (cur : Pid) (ptr n : Nat) : Prop :=
  (∀ i < n, ∃ b, s.contentAt cur (ptr + i) = some b ∧ b ≠ 0) ∧ s.contentAt cur (ptr + n) = some 0 ∧
    ptr + n < physBase

/-- A string has one length. -/
theorem IsString.unique {m : Nat} (h : s.IsString cur ptr n) (h' : s.IsString cur ptr m) : n = m := by
  have hle : ∀ {a b : Nat}, s.IsString cur ptr a → s.IsString cur ptr b → a ≤ b := by
    intro a b ha hb
    by_contra hlt
    obtain ⟨c, hc, hne⟩ := ha.1 b (Nat.lt_of_not_le hlt)
    exact hne (Option.some.inj (hc.symm.trans hb.2.1))
  exact Nat.le_antisymm (hle h h') (hle h' h)

theorem contentAt_of_present (h : Ready s cur)
    (hk : (s.pagedirGetPage cur (ptr / pgsize)).isSome = true) :
    s.contentAt cur ptr = some (s.byteAt cur ptr) := by
  obtain ⟨k, hk⟩ := Option.isSome_iff_exists.mp hk
  obtain ⟨q, hl, -⟩ := h.whole_of_present hk
  rw [contentAt, content_of_present hl hk, byteAt, (frame_eq_some.mp hk).2]
  rfl

/-- The loop looks at each character up to the end of the string. -/
theorem validateStringFrom_iff (fuel : Nat) :
    ∀ ch : Nat, s.validateStringFrom cur fuel ch = true ↔
      ∃ n < fuel, (∀ i ≤ n, s.validateAddr cur (ch + i) = true) ∧
        (∀ i < n, s.byteAt cur (ch + i) ≠ 0) ∧ s.byteAt cur (ch + n) = 0 := by
  induction fuel with
  | zero => exact fun ch => iff_of_false nofun fun ⟨n, hn, _⟩ => Nat.not_lt_zero n hn
  | succ fuel ih =>
    intro ch
    unfold validateStringFrom
    split
    swap
    · next hv => exact iff_of_false nofun fun ⟨n, _, hall, _⟩ => hv (hall 0 (Nat.zero_le n))
    next hv =>
    split
    · next hzero => exact iff_of_true rfl ⟨0, Nat.succ_pos fuel, fun i hi => by
        rw [Nat.le_zero.mp hi]
        exact hv, nofun, hzero⟩
    next hchar =>
    rw [ih]
    constructor
    · rintro ⟨n, hn, hall, hchars, hend⟩
      refine ⟨n + 1, Nat.succ_lt_succ hn, fun i hi => ?_, fun i hi => ?_, ?_⟩
      · cases i with
        | zero => exact hv
        | succ i =>
          rw [← Nat.add_assoc, Nat.add_right_comm]
          exact hall i (Nat.le_of_succ_le_succ hi)
      · cases i with
        | zero => exact hchar
        | succ i =>
          rw [← Nat.add_assoc, Nat.add_right_comm]
          exact hchars i (Nat.lt_of_succ_lt_succ hi)
      · rw [← Nat.add_assoc, Nat.add_right_comm]
        exact hend
    · rintro ⟨n, hn, hall, hchars, hend⟩
      cases n with
      | zero => exact absurd hend hchar
      | succ n =>
        refine ⟨n, Nat.lt_of_succ_lt_succ hn, fun i hi => ?_, fun i hi => ?_, ?_⟩
        · rw [Nat.add_right_comm, Nat.add_assoc]
          exact hall (i + 1) (Nat.succ_le_succ hi)
        · rw [Nat.add_right_comm, Nat.add_assoc]
          exact hchars (i + 1) (Nat.succ_lt_succ hi)
        · rw [Nat.add_right_comm, Nat.add_assoc]
          exact hend

/-- All the windows of four bytes that start in a string are on pages that are present. -/
theorem resident_iff (hptr : ptr ≠ 0) :
    s.Resident cur ptr (n + 4) ↔ ∀ i ≤ n, s.Resident cur (ptr + i) 4 := by
  constructor
  · rintro ⟨-, hall⟩ i hi
    refine ⟨fun hc => hptr (Nat.eq_zero_of_add_eq_zero_right hc), fun j hj => ?_⟩
    rw [Nat.add_assoc]
    exact hall (i + j) (Nat.add_lt_add_of_le_of_lt hi hj)
  · intro h
    refine ⟨hptr, fun i hi => ?_⟩
    rcases Nat.lt_or_ge n i with hlt | hle
    · obtain ⟨j, rfl⟩ := Nat.exists_eq_add_of_lt hlt
      have hwin := (h n (Nat.le_refl n)).2 (j + 1) (by omega)
      rwa [Nat.add_assoc ptr n (j + 1)] at hwin
    · exact (h i hle).2 0 (by decide)

theorem Resident.present {i : Nat} (h : s.Resident cur ptr n) (hi : i < n) :
    (s.pagedirGetPage cur ((ptr + i) / pgsize)).isSome = true := (h.2 i hi).2

/-- `validate_string` accepts a string if it and the three bytes after it are on pages that are
present. -/
theorem validateString_iff (h : Ready s cur) :
    s.validateString cur ptr = true ↔
      ∃ n, s.IsString cur ptr n ∧ s.Resident cur ptr (n + 4) := by
  unfold validateString
  rw [Bool.and_eq_true, bne_iff_ne, validateStringFrom_iff]
  constructor
  · rintro ⟨hptr, n, -, hall, hchars, hend⟩
    have hres : s.Resident cur ptr (n + 4) :=
      (resident_iff hptr).mpr fun i hi => validateAddr_iff.mp (hall i hi)
    have hbyte : ∀ i ≤ n, s.contentAt cur (ptr + i) = some (s.byteAt cur (ptr + i)) := fun i hi =>
      contentAt_of_present h (hres.present (by omega))
    refine ⟨n, ⟨fun i hi => ⟨_, hbyte i (Nat.le_of_lt hi), hchars i hi⟩, ?_, ?_⟩, hres⟩
    · rw [hbyte n (Nat.le_refl n), hend]
    · exact (hres.2 n (Nat.lt_add_of_pos_right (by decide))).1
  · rintro ⟨n, ⟨hchars, hend, hlt⟩, hres⟩
    have hbyte : ∀ i ≤ n, s.contentAt cur (ptr + i) = some (s.byteAt cur (ptr + i)) := fun i hi =>
      contentAt_of_present h (hres.present (by omega))
    refine ⟨hres.1, n, by omega, fun i hi => ?_, fun i hi => ?_, ?_⟩
    · exact validateAddr_iff.mpr ((resident_iff hres.1).mp hres i hi)
    · obtain ⟨b, hb, hne⟩ := hchars i hi
      rw [hbyte i (Nat.le_of_lt hi)] at hb
      exact Option.some.inj hb ▸ hne
    · rw [hbyte n (Nat.le_refl n)] at hend
      exact Option.some.inj hend

/-! ## The checks of the system calls -/

end State

open State

end Pintos.Vm

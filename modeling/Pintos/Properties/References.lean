import Pintos.Properties.Frames
import Mathlib.Data.List.Count
import Mathlib.Data.List.Nodup
import Mathlib.Data.List.Perm.Basic

/-!
# Reference counts

`Counted hs s` says that the open inodes of `s` are counted exactly by the list `hs` of
handles. `Held links hs s` adds that the pointers code finds in the state, to the file of the
free map and to the current directory, are such handles. `Accounts bad links hs x hs'` is a
triple about it: code that starts with the handles `hs` ends with the handles `hs'`, and reads
and closes no freed inode on its way. A function that opens and closes nothing keeps every
list; `inode_open` adds a handle and `inode_close` takes one away.

The triples hold up to the first event that breaks the accounts: `dir_remove` on a
directory closes its inode twice, and `filesys_open` on a removed inode closes it never.
-/

namespace Pintos.Filesys

open Pintos.Logic Pintos.Logic.Exec Pintos.Lib

/-- The open inodes are exactly those with a handle in `hs`, and are counted by it. -/
structure Counted (hs : List Addr) (s : Fs) : Prop where
  sectors : (s.openInodes.map (·.sector)).Nodup
  addrs : (s.openInodes.map (·.addr)).Nodup
  fresh : ∀ i ∈ s.openInodes, i.addr < s.nextAddr
  count : ∀ i ∈ s.openInodes, i.openCnt = hs.count i.addr
  held : ∀ i ∈ s.openInodes, i.addr ∈ hs
  opened : ∀ a ∈ hs, ∃ i ∈ s.openInodes, i.addr = a

namespace Counted

variable {hs hs' : List Addr} {s : Fs}

theorem perm (h : Counted hs s) (hp : hs.Perm hs') : Counted hs' s :=
  ⟨h.sectors, h.addrs, h.fresh, fun i hi => by rw [h.count i hi, hp.count_eq],
    fun i hi => hp.mem_iff.mp (h.held i hi), fun a ha => h.opened a (hp.mem_iff.mpr ha)⟩

/-- Only addresses, sectors and counts matter. -/
theorem congr (h : Counted hs s) {s' : Fs}
    (hi : s'.openInodes.map (fun i => (i.addr, i.sector, i.openCnt))
      = s.openInodes.map (fun i => (i.addr, i.sector, i.openCnt)))
    (hn : s'.nextAddr = s.nextAddr) : Counted hs s' := by
  have hmap : ∀ {β : Type} (g : Addr × Nat × Int → β),
      s'.openInodes.map (fun i => g (i.addr, i.sector, i.openCnt))
        = s.openInodes.map (fun i => g (i.addr, i.sector, i.openCnt)) := by
    intro β g
    simpa [List.map_map, Function.comp_def] using congrArg (List.map g) hi
  have hmem : ∀ i' ∈ s'.openInodes, ∃ i ∈ s.openInodes, i.addr = i'.addr ∧
      i.sector = i'.sector ∧ i.openCnt = i'.openCnt := by
    intro i' hi'
    have : (i'.addr, i'.sector, i'.openCnt)
        ∈ s.openInodes.map (fun i => (i.addr, i.sector, i.openCnt)) :=
      hi ▸ List.mem_map.mpr ⟨i', hi', rfl⟩
    simpa [List.mem_map] using this
  constructor
  · rw [hmap fun p => p.2.1]
    exact h.sectors
  · rw [hmap fun p => p.1]
    exact h.addrs
  · intro i' hi'
    obtain ⟨i, hm, ha, -, -⟩ := hmem i' hi'
    rw [hn, ← ha]
    exact h.fresh i hm
  · intro i' hi'
    obtain ⟨i, hm, ha, -, hc⟩ := hmem i' hi'
    rw [← hc, ← ha]
    exact h.count i hm
  · intro i' hi'
    obtain ⟨i, hm, ha, -, -⟩ := hmem i' hi'
    rw [← ha]
    exact h.held i hm
  · intro a ha
    obtain ⟨i, hm, rfl⟩ := h.opened a ha
    have : i.addr ∈ s'.openInodes.map (·.addr) := by
      rw [hmap fun p => p.1]
      exact List.mem_map.mpr ⟨i, hm, rfl⟩
    simpa [List.mem_map] using this

theorem map_mapInode {β : Type} (s : Fs) (a : Addr) (f : Inode → Inode) (g : Inode → β)
    (hg : ∀ i, g (f i) = g i) : (s.mapInode a f).openInodes.map g = s.openInodes.map g := by
  simp only [Fs.mapInode, List.map_map]
  refine List.map_congr_left fun i _ => ?_
  by_cases h : i.addr = a <;> simp [h, hg]

/-- A change of anything else in an inode leaves the accounts alone. -/
theorem mapInode (h : Counted hs s) (a : Addr) {f : Inode → Inode}
    (hf : ∀ i, (f i).addr = i.addr ∧ (f i).sector = i.sector ∧ (f i).openCnt = i.openCnt) :
    Counted hs (s.mapInode a f) := by
  refine h.congr (map_mapInode s a f _ fun i => ?_) rfl
  obtain ⟨h1, h2, h3⟩ := hf i
  rw [h1, h2, h3]

/-- What is in the list of open inodes after a count has been changed. -/
theorem mem_mapInode {i' : Inode} {a : Addr} {f : Inode → Inode}
    (h : i' ∈ (s.mapInode a f).openInodes) :
    ∃ i ∈ s.openInodes, i' = if i.addr = a then f i else i := by
  obtain ⟨i, hi, rfl⟩ := List.mem_map.mp h
  exact ⟨i, hi, rfl⟩

/-- The count of an inode and its handles change together. -/
theorem recount (h : Counted hs s) {a : Addr} {k : Int}
    (hcount : (hs'.count a : Int) = hs.count a + k)
    (hother : ∀ b, b ≠ a → hs'.count b = hs.count b) (hmem : ∀ b, b ∈ hs' ↔ b ∈ hs) :
    Counted hs' (s.mapInode a fun i => { i with openCnt := i.openCnt + k }) := by
  have hkeep : ∀ {β : Type} (g : Inode → β),
      (∀ i : Inode, g { i with openCnt := i.openCnt + k } = g i) →
        (s.mapInode a fun i => { i with openCnt := i.openCnt + k }).openInodes.map g
          = s.openInodes.map g := fun g => map_mapInode s a _ g
  constructor
  · rw [hkeep _ fun _ => rfl]
    exact h.sectors
  · rw [hkeep _ fun _ => rfl]
    exact h.addrs
  · intro i' hi'
    obtain ⟨i, hi, rfl⟩ := mem_mapInode hi'
    split <;> exact h.fresh i hi
  · intro i' hi'
    obtain ⟨i, hi, rfl⟩ := mem_mapInode hi'
    split
    · next ha =>
      show i.openCnt + k = hs'.count i.addr
      rw [h.count i hi, ha, hcount]
    · next ha => rw [h.count i hi, hother _ ha]
  · intro i' hi'
    obtain ⟨i, hi, rfl⟩ := mem_mapInode hi'
    split <;> exact (hmem _).mpr (h.held i hi)
  · intro b hb
    obtain ⟨i, hi, rfl⟩ := h.opened b ((hmem b).mp hb)
    refine ⟨_, List.mem_map.mpr ⟨i, hi, rfl⟩, ?_⟩
    split <;> rfl

/-- One more handle to an open inode. -/
theorem reopen (h : Counted hs s) {a : Addr} (ha : a ∈ hs) :
    Counted (a :: hs) (s.mapInode a fun i => { i with openCnt := i.openCnt + 1 }) := by
  refine h.recount (by simp) (fun b hb => List.count_cons_of_ne (Ne.symm hb)) fun b => ?_
  simp only [List.mem_cons, or_iff_right_iff_imp]
  rintro rfl
  exact ha

/-- The first handle to a new inode. -/
theorem cons (h : Counted hs s) {sector : Nat} (hs' : ∀ i ∈ s.openInodes, i.sector ≠ sector)
    (data : Block) :
    Counted (s.nextAddr :: hs) { s with
      nextAddr := s.nextAddr + 1
      openInodes := ⟨s.nextAddr, sector, 1, false, 0, data⟩ :: s.openInodes } := by
  have hnew : s.nextAddr ∉ hs := by
    intro ha
    obtain ⟨i, hi, he⟩ := h.opened _ ha
    exact Nat.ne_of_lt (h.fresh i hi) he
  have hne : ∀ i ∈ s.openInodes, i.addr ≠ s.nextAddr := fun i hi =>
    Nat.ne_of_lt (h.fresh i hi)
  constructor
  · simp only [List.map_cons, List.nodup_cons, List.mem_map, not_exists, not_and]
    exact ⟨hs', h.sectors⟩
  · simp only [List.map_cons, List.nodup_cons, List.mem_map, not_exists, not_and]
    exact ⟨hne, h.addrs⟩
  · intro i hi
    rcases List.mem_cons.mp hi with rfl | hi
    · exact Nat.lt_succ_self _
    · exact Nat.lt_succ_of_lt (h.fresh i hi)
  · intro i hi
    rcases List.mem_cons.mp hi with rfl | hi
    · simp [List.count_eq_zero.mpr hnew]
    · rw [h.count i hi, List.count_cons_of_ne (Ne.symm (hne i hi))]
  · intro i hi
    rcases List.mem_cons.mp hi with rfl | hi
    · exact List.mem_cons_self
    · exact List.mem_cons_of_mem _ (h.held i hi)
  · intro a ha
    rcases List.mem_cons.mp ha with rfl | ha
    · exact ⟨_, List.mem_cons_self, rfl⟩
    · obtain ⟨i, hi, he⟩ := h.opened a ha
      exact ⟨i, List.mem_cons_of_mem _ hi, he⟩

/-- One handle less, and another one left. -/
theorem close (h : Counted (a :: hs) s) (ha : a ∈ hs) :
    Counted hs (s.mapInode a fun i => { i with openCnt := i.openCnt - 1 }) := by
  refine h.recount (k := -1) (by rw [List.count_cons_self]; omega)
    (fun b hb => (List.count_cons_of_ne (Ne.symm hb)).symm) fun b => ?_
  simp only [List.mem_cons, iff_or_self]
  rintro rfl
  exact ha

/-- The last handle to an inode goes, and the inode with it. -/
theorem free {a : Addr} (h : Counted (a :: hs) s) (ha : a ∉ hs) {f : Inode → Inode}
    (hf : ∀ i, (f i).addr = i.addr) :
    Counted hs { s.mapInode a f with
      openInodes := (s.mapInode a f).openInodes.filter (·.addr != a) } := by
  have hfilter : (s.mapInode a f).openInodes.filter (·.addr != a)
      = s.openInodes.filter (·.addr != a) := by
    simp only [Fs.mapInode, List.filter_map]
    conv => rhs; rw [← List.map_id (s.openInodes.filter _)]
    have hp : ((fun i : Inode => i.addr != a) ∘ fun i => if i.addr = a then f i else i)
        = fun i => i.addr != a := by
      funext i
      by_cases hi : i.addr = a <;> simp [hi, hf]
    rw [hp]
    refine List.map_congr_left fun i hi => ?_
    rw [if_neg (by simpa using (List.mem_filter.mp hi).2)]
    rfl
  rw [hfilter]
  have hsub := List.filter_sublist (p := fun i : Inode => i.addr != a) (l := s.openInodes)
  have hne : ∀ i ∈ s.openInodes.filter (·.addr != a), i.addr ≠ a := fun i hi => by
    simpa using (List.mem_filter.mp hi).2
  constructor
  · exact h.sectors.sublist (hsub.map _)
  · exact h.addrs.sublist (hsub.map _)
  · exact fun i hi => h.fresh i (hsub.subset hi)
  · intro i hi
    rw [h.count i (hsub.subset hi), List.count_cons_of_ne (Ne.symm (hne i hi))]
  · intro i hi
    exact (List.mem_cons.mp (h.held i (hsub.subset hi))).resolve_left (hne i hi)
  · intro b hb
    obtain ⟨i, hi, rfl⟩ := h.opened b (List.mem_cons_of_mem _ hb)
    refine ⟨i, List.mem_filter.mpr ⟨hi, ?_⟩, rfl⟩
    simpa using fun he : i.addr = a => ha (he ▸ hb)

end Counted

/-- A handle is to an inode that is open. -/
theorem inode?_of_counted {hs : List Addr} {s : Fs} {a : Addr} (h : Counted hs s) (ha : a ∈ hs) :
    ∃ i, s.inode? a = some i := by
  obtain ⟨i, hi, rfl⟩ := h.opened a ha
  refine Option.isSome_iff_exists.mp ?_
  rw [Fs.inode?, List.find?_isSome]
  exact ⟨i, hi, by simp⟩

/-! ## Triples -/

/-- The events after which the accounts need not be right any more. -/
def closingEvents : List Event := [.dirRemoved, .removedOpened]

/-- What is known of the pointers that code finds in the state. -/
structure Links where
  /-- The handle of the free map file. -/
  freeMap : List Addr
  /-- The inode of the current directory. -/
  cwd : List Addr
  /-- No open inode is removed. -/
  unmarked : Bool

/-- The handles that the links stand for. -/
def linked (links : Option Links) : List Addr := links.elim [] (·.freeMap)

/-- The handles `hs` and that of the free map file count the open inodes. -/
structure Held (links : Option Links) (hs : List Addr) (s : Fs) : Prop where
  counted : Counted (linked links ++ hs) s
  freeMapFile : ∀ w ∈ links, ∀ f ∈ s.freeMapFile, f.inode ∈ w.freeMap
  cwd : ∀ w ∈ links, ∀ d ∈ s.cwd, d.inode ∈ w.cwd
  unmarked : ∀ w ∈ links, w.unmarked = true → ∀ i ∈ s.openInodes, i.removed = false

/-- A handle, where it matters whether pointers are right. -/
abbrev Known (links : Option Links) (hs : List Addr) (a : Addr) : Prop :=
  links.isSome → a ∈ linked links ++ hs

/-- No freed inode is closed, and none is read where pointers are right. -/
abbrev Fault.Safe (linked : Bool) (fault : Fault) : Prop :=
  fault ≠ .doubleClose ∧ (linked = true → fault ≠ .useAfterFree)

theorem Fault.Mild.safe {linked : Bool} {fault : Fault} (h : Fault.Mild fault) :
    Fault.Safe linked fault := ⟨h.1, fun _ => h.2.2⟩

/-- Code that starts with the handles `hs` and returns `a` ends with the handles `hs' a`, unless
one of the events in `bad` happens. -/
def Accounts {α : Type} (bad : List Event) (links : Option Links) (hs : List Addr) (x : Kernel α)
    (hs' : α → List Addr) : Prop :=
  ∀ s, (s.history.Free bad → Held links hs s) →
    x.wp (fun e => e.history.Free bad → Fault.Safe links.isSome e.fault)
      (fun a s' => s'.history.Free bad → Held links (hs' a) s') s

section

variable {α β : Type} {bad : List Event} {links : Option Links} {hs hs' : List Addr} {s : Fs}

namespace Held

theorem perm (h : Held links hs s) (hp : hs.Perm hs') : Held links hs' s :=
  ⟨h.counted.perm (hp.append_left _), h.freeMapFile, h.cwd, h.unmarked⟩

/-- Nothing is closed, opened, linked or marked. -/
theorem congr (h : Held links hs s) {s' : Fs} (hi : s'.openInodes = s.openInodes)
    (hn : s'.nextAddr = s.nextAddr) (hf : s'.freeMapFile = s.freeMapFile)
    (hc : s'.cwd = s.cwd) : Held links hs s' where
  counted := h.counted.congr (by rw [hi]) hn
  freeMapFile := hf ▸ h.freeMapFile
  cwd := hc ▸ h.cwd
  unmarked := hi ▸ h.unmarked

/-- Another list of open inodes, of which none is newly marked. -/
theorem inodes (h : Held links hs s) {is : List Inode} {n : Nat}
    (hc : Counted (linked links ++ hs') { s with openInodes := is, nextAddr := n })
    (hm : ∀ i ∈ is, i.removed = true → ∃ j ∈ s.openInodes, j.removed = true) :
    Held links hs' { s with openInodes := is, nextAddr := n } where
  counted := hc
  freeMapFile := h.freeMapFile
  cwd := h.cwd
  unmarked w hw hu i hi := by
    by_contra hr
    obtain ⟨j, hj, hjr⟩ := hm i hi (Bool.not_eq_false _ ▸ hr)
    rw [h.unmarked w hw hu j hj] at hjr
    cases hjr

/-- What is marked after a change of an inode that does not mark it. -/
theorem marked_mapInode {a : Addr} {f : Inode → Inode} (hf : ∀ i, (f i).removed = i.removed) :
    ∀ i ∈ (s.mapInode a f).openInodes, i.removed = true → ∃ j ∈ s.openInodes, j.removed = true := by
  intro i' hi' hr
  obtain ⟨i, hi, rfl⟩ := Counted.mem_mapInode hi'
  refine ⟨i, hi, ?_⟩
  split at hr
  · rwa [hf] at hr
  · exact hr

end Held

theorem Accounts.bind {x : Kernel α} {f : α → Kernel β} {hs₁ : α → List Addr}
    {hs' : β → List Addr} (hx : Accounts bad links hs x hs₁)
    (hf : ∀ a, Accounts bad links (hs₁ a) (f a) hs') : Accounts bad links hs (x >>= f) hs' := by
  intro s h
  rw [wp_bind]
  exact wp_mono (hx s h) (fun _ h => h) fun a s' h' => hf a s' h'

theorem Accounts.pure (a : α) {hs' : α → List Addr} (h : hs' a = hs) :
    Accounts bad links hs (Pure.pure a) hs' := by
  rintro s hc hf
  rw [h]
  exact hc hf

theorem Accounts.ite {c : Prop} [Decidable c] {x y : Kernel α} {hs' : α → List Addr}
    (hx : Accounts bad links hs x hs') (hy : Accounts bad links hs y hs') :
    Accounts bad links hs (if c then x else y) hs' := by
  split
  · exact hx
  · exact hy

theorem Accounts.gets (f : Fs → α) : Accounts bad links hs (Exec.gets f) fun _ => hs :=
  fun _ h => h

theorem Accounts.fail {fault : Fault} (h : Fault.Mild fault) {hs' : α → List Addr} :
    Accounts bad links hs (fail fault : Kernel α) hs' := fun _ _ _ => h.safe

/-- Every step that opens and closes nothing keeps the accounts. -/
theorem held_quiet (bad : List Event) (links : Option Links) (hs : List Addr) :
    Quiet (fun s s' => (s.history.Free bad → Held links hs s) →
        s'.history.Free bad → Held links hs s')
      (fun s e => (s.history.Free bad → Held links hs s) →
        e.history.Free bad → Fault.Safe links.isSome e.fault) where
  refl _ h := h
  trans h h' hc := h' (h hc)
  fault h h' hc := h' (h hc)
  stop _ _ h _ _ := h.safe
  step _ _ _ _ h hf := (h hf).congr rfl rfl rfl rfl
  freeMap _ _ _ h hf := (h hf).congr rfl rfl rfl rfl
  history _ _ hle h hf := (h (hf.of_le hle)).congr rfl rfl rfl rfl
  data _ _ _ h hf := (h hf).inodes ((h hf).counted.mapInode _ fun _ => ⟨rfl, rfl, rfl⟩)
    (Held.marked_mapInode fun _ => rfl)
  releaseFree _ _ _ := ⟨Fault.noConfusion, fun _ => Fault.noConfusion⟩
  mapFile s f hfile hi h hf := by
    refine ⟨Fault.noConfusion, fun hl => ?_⟩
    obtain ⟨w, rfl⟩ := Option.isSome_iff_exists.mp hl
    have hmem : f.inode ∈ w.freeMap := (h hf).freeMapFile w rfl f hfile
    obtain ⟨i, hsome⟩ := inode?_of_counted (h hf).counted (List.mem_append_left hs hmem)
    rw [hsome] at hi
    cases hi

theorem Known.of_mem {a : Addr} (ha : a ∈ hs) : Known links hs a :=
  fun _ => List.mem_append_right _ ha

/-- The first handle. -/
theorem Known.head {a : Addr} : Known links (a :: hs) a := .of_mem List.mem_cons_self

theorem Known.cons {a b : Addr} (ha : Known links hs a) : Known links (b :: hs) a := fun hl =>
  List.perm_middle.mem_iff.mpr (List.mem_cons_of_mem b (ha hl))

/-- A handle is not to a freed inode. -/
theorem Known.derefs {a : Addr} (ha : Known links hs a) :
    Derefs (fun s e => (s.history.Free bad → Held links hs s) →
      e.history.Free bad → Fault.Safe links.isSome e.fault) a := by
  refine fun s hi h hf => ⟨Fault.noConfusion, fun hl => ?_⟩
  obtain ⟨i, hsome⟩ := inode?_of_counted (h hf).counted (ha hl)
  rw [hsome] at hi
  cases hi

/-- Code that opens and closes nothing, and reads known inodes, keeps the accounts. -/
theorem Accounts.of_quiet {x : Kernel α}
    (h : ∀ (R : Fs → Fs → Prop) (F : Fs → Stop → Prop), Quiet R F →
      (∀ a, Known links hs a → Derefs F a) → Steps R F x) :
    Accounts bad links hs x fun _ => hs := fun s hc =>
  wp_mono (h _ _ (held_quiet bad links hs) (fun _ ha => ha.derefs) s) (fun _ he => he hc)
    fun _ _ h' => h' hc

/-- After one of the events anything may happen. -/
theorem Accounts.of_event {event : Event} (he : event ∈ bad) {f : Unit → Kernel α}
    (hf : ∀ (R : Fs → Fs → Prop) (F : Fs → Stop → Prop), Loud R F → Steps R F (f ()))
    {hs' : α → List Addr} : Accounts bad links hs (record event >>= f) hs' := by
  intro s _
  have hle := hf _ _ events_loud { s with history := { s.history with
    events := event :: s.history.events } }
  show (f ()).wp _ _ _
  refine wp_mono hle (fun e h hfree => ?_) fun a s' h hfree => ?_
  · exact absurd (h List.mem_cons_self) (hfree event he)
  · exact absurd (h List.mem_cons_self) (hfree event he)

/-- Handles may be listed in any order. -/
theorem Accounts.perm {hs₁ : List Addr} {x : Kernel α} {hs' : α → List Addr}
    (h : Accounts bad links hs₁ x hs') (hp : hs.Perm hs₁) : Accounts bad links hs x hs' :=
  fun s hc => h s fun hf => (hc hf).perm hp

/-- For code that forgets no event, the accounts may be taken to be right at the start. -/
theorem Accounts.of_free {x : Kernel α} {hs' : α → List Addr}
    (hx : ∀ (R : Fs → Fs → Prop) (F : Fs → Stop → Prop), Loud R F → Steps R F x)
    (h : ∀ s, s.history.Free bad → Held links hs s →
      x.wp (fun e => e.history.Free bad → Fault.Safe links.isSome e.fault)
        (fun a s' => s'.history.Free bad → Held links (hs' a) s') s) :
    Accounts bad links hs x hs' := by
  intro s hc
  by_cases hf : s.history.Free bad
  · exact h s hf (hc hf)
  · exact wp_mono (hx _ _ events_loud s) (fun _ hle hf' => absurd (hf'.of_le hle) hf)
      fun _ _ hle hf' => absurd (hf'.of_le hle) hf

/-! ## Inodes -/

theorem inode?_some {s : Fs} {a : Addr} {i : Inode} (h : s.inode? a = some i) :
    i ∈ s.openInodes ∧ i.addr = a := by
  refine ⟨List.mem_of_find?_eq_some h, ?_⟩
  simpa using List.find?_some h

theorem inodeReopen_accounts {a : Addr} (ha : Known links hs a) :
    Accounts bad links hs (inodeReopen a) fun b => b :: hs := by
  refine Accounts.of_free (fun _ _ l => inodeReopen_steps l a) fun s hf hc => ?_
  unfold wp inodeReopen deref
  simp only [bind, Pure.pure]
  cases hi : s.inode? a with
  | none => exact fun hf' => ha.derefs s hi (fun _ => hc) hf'
  | some i =>
    obtain ⟨hm, rfl⟩ := inode?_some hi
    refine fun _ => hc.inodes ?_ (Held.marked_mapInode fun _ => rfl)
    exact (hc.counted.reopen (hc.counted.held i hm)).perm List.perm_middle.symm

/-- Code that only reads sectors changes nothing that is counted. -/
theorem store_reading : Reading (fun s s' => ∃ st clock, s' = { s with store := st, clock })
    (fun _ e => Fault.Mild e.fault) where
  refl s := ⟨s.store, s.clock, rfl⟩
  trans := by
    rintro s _ _ ⟨st, clock, rfl⟩ ⟨st', clock', rfl⟩
    exact ⟨st', clock', rfl⟩
  fault _ h := h
  stop _ _ h := h
  look _ st clock _ _ := ⟨st, clock, rfl⟩

theorem inodeOpen_accounts (sector : Nat) :
    Accounts bad links hs (inodeOpen sector) fun r => r.toList ++ hs := by
  refine Accounts.of_free (fun _ _ l => inodeOpen_steps l _) fun s hf hc => ?_
  unfold inodeOpen recordIf
  rw [wp_bind, wp_modify, wp_bind, wp_gets]
  dsimp only
  cases hfind : s.openInodes.find? (·.sector == sector) with
  | some i =>
    have hi : Known links hs i.addr := fun _ =>
      hc.counted.held i (List.mem_of_find?_eq_some hfind)
    rw [wp_bind, wp_modify, wp_map]
    exact inodeReopen_accounts hi _ fun _ => hc.congr rfl rfl rfl rfl
  | none =>
    have hne : ∀ i ∈ s.openInodes, i.sector ≠ sector := by
      simpa using List.find?_eq_none.mp hfind
    rw [wp_bind]
    show (if s.env.mallocs s.clock.mallocs then _ else _ : Kernel (Option Addr)).wp _ _ _
    split
    · rw [wp_bind]
      refine wp_mono (readSector_steps store_reading sector _) (fun _ he _ => he.safe)
        fun data s' h' _ => ?_
      obtain ⟨st, clock, rfl⟩ := h'
      have hc' : ∀ h, Held links hs { s with store := st, clock, history := h } :=
        fun _ => hc.congr rfl rfl rfl rfl
      refine (hc' _).inodes (((hc' _).counted.cons hne data).perm List.perm_middle.symm)
        fun i hi hr => ?_
      rcases List.mem_cons.mp hi with rfl | hi
      · cases hr
      · exact ⟨i, hi, hr⟩
    · exact fun _ => hc.congr rfl rfl rfl rfl

theorem inodeClose_accounts (a : Addr) :
    Accounts bad links (a :: hs) (inodeClose (some a)) fun _ => hs := by
  refine Accounts.of_free (fun _ _ l => inodeClose_steps l _) fun s hf hc => ?_
  have hcounted : Counted (a :: (linked links ++ hs)) s := hc.counted.perm List.perm_middle
  obtain ⟨i, hi⟩ := inode?_of_counted hcounted List.mem_cons_self
  obtain ⟨hm, rfl⟩ := inode?_some hi
  have hcnt : i.openCnt = (linked links ++ hs).count i.addr + 1 := by
    rw [hcounted.count i hm, List.count_cons_self]
    rfl
  have hd : derefClose i.addr s = .ok (i, s) := by
    unfold derefClose
    rw [hi]
  unfold inodeClose
  rw [wp_bind]
  unfold wp
  rw [hd]
  show (if i.openCnt - 1 = 0 then _ else _ : Kernel Unit).wp _ _ _
  split
  · -- the last handle: only now are sectors released
    have hnot : i.addr ∉ linked links ++ hs := by
      rw [← List.count_eq_zero]
      omega
    have hfree := hcounted.free hnot (f := fun i => { i with openCnt := i.openCnt - 1 })
      fun _ => rfl
    have hheld := hc.inodes hfree fun j hj =>
      Held.marked_mapInode (f := fun i => { i with openCnt := i.openCnt - 1 }) (fun _ => rfl) j
        (List.mem_of_mem_filter hj)
    show (if i.removed then _ else _ : Kernel Unit).wp _ _ _
    refine Accounts.ite (Accounts.of_quiet fun _ _ q _ => ?_) (Accounts.pure () rfl) _
      fun _ => hheld
    exact q.bind (freeMapRelease_steps q _) fun _ => q.bind (inodeUnreserve_steps q _) fun _ =>
      q.pure _
  · refine fun _ => hc.inodes (hcounted.close ?_) (Held.marked_mapInode fun _ => rfl)
    rw [← List.count_pos_iff]
    omega

/-- The handle that a pointer is, if it is not null. -/
abbrev handle (r : Option Addr) : List Addr := r.toList

theorem inodeClose_accounts' (r : Option Addr) :
    Accounts bad links (handle r ++ hs) (inodeClose r) fun _ => hs := by
  cases r with
  | none => exact Accounts.pure () rfl
  | some a => exact inodeClose_accounts a

theorem inodeRemove_accounts {a : Addr} (hm : ∀ w ∈ links, w.unmarked = false)
    (ha : Known links hs a) : Accounts bad links hs (inodeRemove a) fun _ => hs := by
  refine Accounts.bind (Accounts.of_quiet fun _ _ q d => deref_steps q.toReading (d a ha))
    fun _ s hc hf => ⟨(hc hf).counted.mapInode a fun _ => ⟨rfl, rfl, rfl⟩, (hc hf).freeMapFile,
      (hc hf).cwd, fun w hw hu => ?_⟩
  rw [hm w hw] at hu
  cases hu

/-! ## Files and directories -/

theorem fileOpen_accounts (r : Option Addr) :
    Accounts bad links (handle r ++ hs) (fileOpen r) fun f => handle (f.map (·.inode)) ++ hs := by
  refine Accounts.bind (Accounts.of_quiet fun _ _ q _ => malloc_steps q.toReading) fun memory => ?_
  split
  · exact Accounts.pure _ rfl
  · exact Accounts.bind (inodeClose_accounts' _) fun _ => Accounts.pure _ rfl

theorem fileClose_accounts {f : File} (hf : f.denyWrite = false) :
    Accounts bad links (f.inode :: hs) (fileClose f) fun _ => hs := by
  unfold fileClose
  rw [hf]
  exact Accounts.bind (Accounts.pure () rfl) fun _ => inodeClose_accounts _

theorem dirOpen_accounts (r : Option Addr) :
    Accounts bad links (handle r ++ hs) (dirOpen r) fun d => handle (d.map (·.inode)) ++ hs := by
  refine Accounts.bind (Accounts.of_quiet fun _ _ q _ => malloc_steps q.toReading) fun memory => ?_
  split
  · exact Accounts.pure _ rfl
  · exact Accounts.bind (inodeClose_accounts' _) fun _ => Accounts.pure _ rfl

theorem dirClose_accounts (d : Option Dir) :
    Accounts bad links (handle (d.map (·.inode)) ++ hs) (dirClose d) fun _ => hs := by
  cases d with
  | none => exact Accounts.pure () rfl
  | some d => exact inodeClose_accounts d.inode

theorem dirOpenRoot_accounts :
    Accounts bad links hs dirOpenRoot fun d => handle (d.map (·.inode)) ++ hs :=
  Accounts.bind (inodeOpen_accounts _) fun r => dirOpen_accounts r

theorem dirReopen_accounts {d : Dir} (hd : Known links hs d.inode) :
    Accounts bad links hs (dirReopen d) fun d => handle (d.map (·.inode)) ++ hs :=
  Accounts.bind (inodeReopen_accounts hd) fun a => dirOpen_accounts (some a)

theorem dirLookup_accounts {d : Dir} (hd : Known links hs d.inode) (name : CString) :
    Accounts bad links hs (dirLookup d name) fun r => handle r ++ hs := by
  refine Accounts.ite ?_ (Accounts.ite ?_ ?_)
  · exact Accounts.bind (inodeReopen_accounts hd) fun a => Accounts.pure _ rfl
  · exact Accounts.bind (Accounts.of_quiet fun _ _ q _ => uninitialised_steps q.toReading) fun _ =>
      Accounts.bind (Accounts.of_quiet fun _ _ q h => readEntry_steps q.toReading (h _ hd) _ _)
        fun _ => inodeOpen_accounts _
  · refine Accounts.bind (Accounts.of_quiet fun _ _ q h => lookup_steps q.toReading (h _ hd) _)
      fun r => ?_
    cases r with
    | none => exact Accounts.pure _ rfl
    | some e => exact inodeOpen_accounts _

/-- Every turn of the walk hands the directory on to the next. -/
theorem walk_accounts (ts : List CString) : ∀ d : Dir,
    Accounts bad links (d.inode :: hs) (walk ts d) fun d => handle (d.map (·.inode)) ++ hs := by
  induction ts with
  | nil =>
    exact fun _ => Accounts.bind (Accounts.of_quiet fun _ _ q _ => recordIf_steps q _ _) fun _ =>
      Accounts.pure _ rfl
  | cons token rest ih =>
    intro d
    refine Accounts.bind (Accounts.of_quiet fun _ _ q _ => recordIf_steps q _ _) fun _ =>
      Accounts.bind (dirLookup_accounts .head _) fun r => ?_
    cases r with
    | none => exact Accounts.bind (dirClose_accounts (some d)) fun _ => Accounts.pure _ rfl
    | some inode =>
      refine Accounts.bind (dirOpen_accounts (some inode)) fun next => ?_
      cases next with
      | none => exact Accounts.bind (dirClose_accounts (some d)) fun _ => Accounts.pure _ rfl
      | some next =>
        refine Accounts.bind ((dirClose_accounts (some d)).perm ?_) fun _ => ih next
        exact List.Perm.swap _ _ _

/-- The current directory is looked up, and so has to be held. -/
abbrev HoldsCwd (links : Option Links) (hs : List Addr) : Prop := ∀ w ∈ links, w.cwd ⊆ hs

theorem startDir_accounts (hcwd : HoldsCwd links hs) (path : CString) :
    Accounts bad links hs (startDir path) fun d => handle (d.map (·.inode)) ++ hs := by
  refine Accounts.of_free (fun _ _ l => startDir_steps l path) fun s hf hc => ?_
  unfold startDir
  split
  · exact dirOpenRoot_accounts s fun _ => hc
  rw [wp_bind, wp_gets]
  cases hcw : s.cwd with
  | none => exact dirOpenRoot_accounts s fun _ => hc
  | some cwd =>
    have hd : Known links hs cwd.inode := fun hl => by
      obtain ⟨w, hw⟩ := Option.isSome_iff_exists.mp hl
      exact List.mem_append_right _ (hcwd w hw (hc.cwd w hw cwd hcw))
    exact dirReopen_accounts hd s fun _ => hc

theorem dirOpenPath_accounts (hcwd : HoldsCwd links hs) (path : CString) :
    Accounts bad links hs (dirOpenPath path) fun d => handle (d.map (·.inode)) ++ hs := by
  refine Accounts.bind (Accounts.of_quiet fun _ _ q _ => mallocUnchecked_steps q.toReading) fun _ =>
    Accounts.bind (startDir_accounts hcwd path) fun r => ?_
  cases r with
  | none => exact Accounts.fail (by split <;> decide)
  | some curr =>
    refine Accounts.bind (walk_accounts _ curr) fun r => ?_
    cases r with
    | none => exact Accounts.pure _ rfl
    | some curr =>
      refine Accounts.bind (Accounts.of_quiet fun _ _ q h =>
        deref_steps q.toReading (h _ .head)) fun i => Accounts.ite ?_ (Accounts.pure _ rfl)
      exact Accounts.bind (dirClose_accounts (some curr)) fun _ => Accounts.pure _ rfl

theorem dirAddParent_accounts {d : Dir} (hd : Known links hs d.inode) (sector : Nat)
    (e : DirEntry) : Accounts bad links hs (dirAddParent d sector e) fun _ => hs := by
  refine Accounts.bind (inodeOpen_accounts sector) fun r =>
    Accounts.bind (dirOpen_accounts r) fun child => ?_
  cases child with
  | none => exact Accounts.pure _ rfl
  | some child =>
    exact Accounts.bind (Accounts.of_quiet fun _ _ q h => deref_steps q.toReading (h _ hd.cons))
      fun _ => Accounts.bind (Accounts.of_quiet fun _ _ q h => writeEntry_steps q (h _ .head) _ _)
        fun _ => Accounts.bind (dirClose_accounts (some child)) fun _ => Accounts.pure _ rfl

theorem dirAdd_accounts {d : Dir} (hd : Known links hs d.inode) (name : CString) (sector : Nat)
    (dirFlag : Bool) : Accounts bad links hs (dirAdd d name sector dirFlag) fun _ => hs := by
  refine Accounts.ite (Accounts.pure _ rfl) (Accounts.bind
    (Accounts.of_quiet fun _ _ q h => lookup_steps q.toReading (h _ hd) _) fun r => ?_)
  cases r with
  | some r => exact Accounts.pure _ rfl
  | none =>
    refine Accounts.bind (Accounts.of_quiet fun _ _ q _ => uninitialised_steps q.toReading) fun e =>
      Accounts.bind (Accounts.ite (dirAddParent_accounts hd _ _) (Accounts.pure _ rfl)) fun r => ?_
    cases r with
    | none => exact Accounts.pure _ rfl
    | some e =>
      exact Accounts.bind (Accounts.of_quiet fun _ _ q h =>
        scanDir_steps q.toReading (h _ hd) _ _ _) fun _ =>
          Accounts.of_quiet fun _ _ q h => writeEntry_steps q (h _ hd) _ _

theorem dirRemove_accounts {d : Dir} (hm : ∀ w ∈ links, w.unmarked = false)
    (hd : Known links hs d.inode) (name : CString) :
    Accounts closingEvents links hs (dirRemove d name) fun _ => hs := by
  refine Accounts.bind (Accounts.of_quiet fun _ _ q h => lookup_steps q.toReading (h _ hd) _)
    fun r => ?_
  cases r with
  | none => exact Accounts.pure _ rfl
  | some r =>
    refine Accounts.bind (inodeOpen_accounts _) fun inode => ?_
    cases inode with
    | none => exact Accounts.pure _ rfl
    | some inode =>
      refine Accounts.bind (Accounts.of_quiet fun _ _ q h => deref_steps q.toReading (h _ .head))
        fun i => Accounts.bind (show Accounts closingEvents links _ _ fun _ => inode :: hs from
          Accounts.ite ?_ (Accounts.pure _ rfl)) fun removable => ?_
      · refine Accounts.of_event (by decide) fun _ _ l => l.bind (dirOpen_steps l _) fun t => ?_
        cases t with
        | none => exact l.fail (by decide)
        | some t =>
          exact l.bind (dirIsEmpty_steps l.toReading (l.derefs _)) fun _ =>
            l.bind (dirClose_steps l _) fun _ => l.pure _
      · refine Accounts.bind (Accounts.ite
          (Accounts.of_quiet fun _ _ q h => writeEntry_steps q (h _ hd.cons) _ _)
          (Accounts.pure _ rfl)) fun success => ?_
        refine Accounts.bind (Accounts.ite (inodeRemove_accounts hm .head) (Accounts.pure _ rfl))
          fun _ => ?_
        exact Accounts.bind (inodeClose_accounts inode) fun _ => Accounts.pure _ rfl

/-! ## The file system calls -/

theorem createIn_accounts {d : Dir} (hd : Known links hs d.inode) (filename : CString)
    (initialSize : Int) (dirFlag : Bool) :
    Accounts bad links hs (createIn d filename initialSize dirFlag) fun _ => hs := by
  refine Accounts.bind (Accounts.of_quiet fun _ _ q _ => freeMapAllocate_steps q) fun r => ?_
  cases r with
  | none => exact Accounts.pure _ rfl
  | some sector =>
    exact Accounts.bind (Accounts.of_quiet fun _ _ q _ => inodeCreate_steps q _ _ _) fun _ =>
      Accounts.ite (Accounts.bind (dirAdd_accounts hd _ _ _) fun _ => Accounts.pure _ rfl)
        (Accounts.pure _ rfl)

theorem filesysCreate_accounts (hcwd : HoldsCwd links hs) (path : CString) (initialSize : Int)
    (dirFlag : Bool) :
    Accounts bad links hs (filesysCreate path initialSize dirFlag) fun _ => hs := by
  refine Accounts.bind (Accounts.of_quiet fun _ _ q _ => resolve_steps q.toReading _) fun r =>
    Accounts.bind (dirOpenPath_accounts hcwd _) fun d => ?_
  cases d with
  | none => exact Accounts.pure _ rfl
  | some d =>
    refine Accounts.bind (createIn_accounts .head _ _ _) fun r =>
      Accounts.bind (Accounts.ite (Accounts.of_quiet fun _ _ q _ => freeMapRelease_steps q _)
        (Accounts.pure _ rfl)) fun _ => ?_
    exact Accounts.bind (dirClose_accounts (some d)) fun _ => Accounts.pure _ rfl

theorem filesysOpen_accounts (hcwd : HoldsCwd links hs) (name : CString) :
    Accounts closingEvents links hs (filesysOpen name) fun f => handle (f.map (·.inode)) ++ hs := by
  refine Accounts.ite (Accounts.pure _ rfl)
    (Accounts.bind (Accounts.of_quiet fun _ _ q _ => resolve_steps q.toReading _) fun r =>
      Accounts.bind (dirOpenPath_accounts hcwd _) fun d => ?_)
  cases d with
  | none => exact Accounts.pure _ rfl
  | some d =>
    refine Accounts.bind (show Accounts closingEvents links _ _ fun r => handle r ++ hs from
      Accounts.ite ?_ (Accounts.pure _ rfl)) fun r => ?_
    · refine Accounts.bind (dirLookup_accounts .head _) fun r =>
        Accounts.bind ((dirClose_accounts (some d)).perm ?_) fun _ => Accounts.pure _ rfl
      exact List.perm_middle
    · cases r with
      | none => exact Accounts.pure _ rfl
      | some inode =>
        exact Accounts.bind (Accounts.of_quiet fun _ _ q h => deref_steps q.toReading (h _ .head))
          fun i => Accounts.ite (Accounts.of_event (f := fun _ => pure none)
            (show .removedOpened ∈ closingEvents by decide) fun _ _ l => l.pure _)
            (fileOpen_accounts (some inode))

theorem filesysRemove_accounts (hcwd : HoldsCwd links hs)
    (hm : ∀ w ∈ links, w.unmarked = false) (name : CString) :
    Accounts closingEvents links hs (filesysRemove name) fun _ => hs := by
  refine Accounts.bind (Accounts.of_quiet fun _ _ q _ => resolve_steps q.toReading _) fun r =>
    Accounts.bind (dirOpenPath_accounts hcwd _) fun d => ?_
  cases d with
  | none => exact Accounts.pure _ rfl
  | some d =>
    exact Accounts.bind (dirRemove_accounts hm .head _) fun _ =>
      Accounts.bind (dirClose_accounts (some d)) fun _ => Accounts.pure _ rfl

end

/-! ## Runs -/

/-- What the processes of a run ask the file system for. -/
inductive Request where
  /-- The scheduler runs another thread. -/
  | schedule (thread : Nat)
  | create (path : CString) (initialSize : Int) (dirFlag : Bool)
  | open (name : CString)
  /-- Closes the open file with this place in the list of open files. -/
  | close (n : Nat)
  | remove (name : CString)
  | cd (name : CString)

/-- Serves a request. Returns the files that are open then. -/
def Request.serve (files : List File) : Request → Kernel (List File)
  | .schedule thread => do
    modify fun s => { s with current := thread }
    return files
  | .create path initialSize dirFlag => do
    let _ ← filesysCreate path initialSize dirFlag
    return files
  | .open name => do
    let file ← filesysOpen name
    return file.toList ++ files
  | .close n =>
    match files[n]? with
    | none => return files
    | some file => do
      fileClose file
      return files.eraseIdx n
  | .remove name => do
    let _ ← filesysRemove name
    return files
  | .cd name => do
    let _ ← filesysCd name
    return files

theorem Request.serve_close (files : List File) (n : Nat) :
    (Request.close n).serve files = match files[n]? with
      | none => pure files
      | some f => fileClose f >>= fun _ => pure (files.eraseIdx n) := rfl

/-- Serves requests one after the other. -/
def Request.serveAll : List Request → (files : List File) → Kernel (List File)
  | [], files => return files
  | r :: rs, files => do
    let files ← r.serve files
    serveAll rs files

/-- A run on a freshly formatted device. -/
def runFormatted (env : Env) (unused : Nat → Bool) (disk : Disk) (rs : List Request) :
    Except Stop (List File × Fs) :=
  (do filesysInit true unused; Request.serveAll rs []) (boot env disk)

/-- What had happened by the end of a run. -/
def outcomeHistory : Except Stop (List File × Fs) → History
  | .ok (_, s) => s.history
  | .error e => e.history

/-- The handles between two operations: open files, current directories, the free map. -/
def handles (files : List File) (s : Fs) : List Addr :=
  files.map (·.inode) ++ s.cwds.map (·.2.inode) ++ s.freeMapFile.toList.map (·.inode)

/-- The accounts between two operations. -/
structure Settled (files : List File) (s : Fs) : Prop where
  counted : Counted (handles files s) s
  writable : ∀ f ∈ files, f.denyWrite = false

/-- A run that keeps to the accounts up to the first closing event. -/
abbrev KeepsAccounts {α : Type} (x : Kernel α) (Q : α → Fs → Prop) (s : Fs) : Prop :=
  x.wp (fun e => e.history.Free closingEvents → Fault.Safe true e.fault)
    (fun a s' => s'.history.Free closingEvents → Q a s') s

/-- What is known of the pointers in a state between operations. -/
abbrev Fs.links (s : Fs) : Option Links :=
  some ⟨s.freeMapFile.toList.map (·.inode), s.cwd.toList.map (·.inode), false⟩

/-- The handles but for that of the free map file. -/
def processHandles (files : List File) (s : Fs) : List Addr :=
  files.map (·.inode) ++ s.cwds.map (·.2.inode)

theorem handles_perm (files : List File) (s : Fs) :
    (handles files s).Perm (linked s.links ++ processHandles files s) := List.perm_append_comm

theorem held_links {hs : List Addr} {s : Fs} (h : Counted (linked s.links ++ hs) s) :
    Held s.links hs s where
  counted := h
  freeMapFile := by
    intro w hw f hf
    obtain rfl := Option.mem_some_iff.mp hw
    exact List.mem_map.mpr ⟨f, Option.mem_toList.mpr hf, rfl⟩
  cwd := by
    intro w hw d hd
    obtain rfl := Option.mem_some_iff.mp hw
    exact List.mem_map.mpr ⟨d, Option.mem_toList.mpr hd, rfl⟩
  unmarked := by
    intro w hw hu
    obtain rfl := Option.mem_some_iff.mp hw
    cases hu

theorem holdsCwd_links (files : List File) (s : Fs) :
    HoldsCwd s.links (processHandles files s) := by
  intro w hw a ha
  obtain rfl := Option.mem_some_iff.mp hw
  obtain ⟨d, hd, rfl⟩ := List.mem_map.mp ha
  obtain ⟨c, hc, rfl⟩ := Option.map_eq_some_iff.mp (Option.mem_toList.mp hd)
  exact List.mem_append_right _ (List.mem_map.mpr ⟨c, List.mem_of_find?_eq_some hc, rfl⟩)

/-- The handles outside a call that changes neither a `cwd` nor the free map file. -/
theorem keepsAccounts_of_accounts {α : Type} {files : List File} {s : Fs} {x : Kernel α}
    {hs : α → List Addr} (h : Accounts closingEvents s.links (processHandles files s) x hs)
    (hset : Steps SameSetting (fun _ _ => True) x) (hc : Counted (handles files s) s) :
    KeepsAccounts x (fun a s' => Counted (linked s.links ++ hs a) s' ∧ s'.cwds = s.cwds ∧
      s'.current = s.current ∧ s'.freeMapFile = s.freeMapFile) s :=
  have hheld := held_links (hc.perm (handles_perm files s))
  wp_mono (wp_and (h s fun _ => hheld) (hset s)) (fun _ he => he.1) fun _ _ hq hf =>
    ⟨(hq.1 hf).counted, hq.2.cwds, hq.2.current, hq.2.freeMapFile⟩

theorem perm_cons_eraseP {α : Type} {p : α → Bool} {l : List α} {a : α}
    (h : l.find? p = some a) : l.Perm (a :: l.eraseP p) := by
  induction l with
  | nil => simp at h
  | cons b l ih =>
    rw [List.find?_cons] at h
    rw [List.eraseP_cons]
    cases hb : p b with
    | true =>
      rw [hb] at h
      cases h
      simp
    | false =>
      rw [hb] at h
      simpa using ((ih h).cons b).trans (List.Perm.swap a b _)

theorem perm_cons_eraseIdx {α : Type} {l : List α} {n : Nat} {a : α} (h : l[n]? = some a) :
    l.Perm (a :: l.eraseIdx n) := by
  obtain ⟨hn, rfl⟩ := List.getElem?_eq_some_iff.mp h
  exact (List.getElem_cons_eraseIdx_perm hn).symm

/-- A file just opened is not write-protected. -/
theorem fileOpen_writable (r : Option Addr) :
    Returns (fileOpen r) fun f => ∀ g, f = some g → g.denyWrite = false := by
  have hnone : ∀ g : File, none = some g → g.denyWrite = false := by simp
  refine Returns.bind fun memory => ?_
  split
  · refine Returns.pure fun g hg => ?_
    cases hg
    rfl
  · exact Returns.bind fun _ => Returns.pure hnone

theorem filesysOpen_writable (name : CString) :
    Returns (filesysOpen name) fun f => ∀ g, f = some g → g.denyWrite = false := by
  have hnone : ∀ g : File, none = some g → g.denyWrite = false := by simp
  refine Returns.ite (Returns.pure hnone) (Returns.bind fun r => Returns.bind fun d => ?_)
  cases d with
  | none => exact Returns.pure hnone
  | some d =>
    refine Returns.bind fun inode => ?_
    cases inode with
    | none => exact Returns.pure hnone
    | some inode =>
      exact Returns.bind fun i => Returns.ite (Returns.bind fun _ => Returns.pure hnone)
        (fileOpen_writable _)

/-- The handles of the processes but for the current directory of the running thread. -/
def handlesBesideCwd (files : List File) (s : Fs) : List Addr :=
  files.map (·.inode) ++ (s.cwds.eraseP (·.1 == s.current)).map (·.2.inode)

theorem processHandles_perm_cwd (files : List File) (s : Fs) :
    (processHandles files s).Perm (handle (s.cwd.map (·.inode)) ++ handlesBesideCwd files s) := by
  unfold processHandles handlesBesideCwd Fs.cwd
  cases hfind : s.cwds.find? (·.1 == s.current) with
  | none =>
    rw [List.eraseP_of_forall_not (by simpa using List.find?_eq_none.mp hfind)]
    exact List.Perm.refl _
  | some p =>
    have hp := (perm_cons_eraseP hfind).map (·.2.inode)
    exact (hp.append_left _).trans List.perm_middle

theorem filesysCd_keepsAccounts {files : List File} {s : Fs} (name : CString)
    (h : Counted (handles files s) s) :
    KeepsAccounts (filesysCd name) (fun _ s' => Counted (handles files s') s') s := by
  unfold filesysCd KeepsAccounts
  rw [wp_bind]
  refine wp_mono (keepsAccounts_of_accounts (dirOpenPath_accounts (holdsCwd_links files s) name)
    (dirOpenPath_steps setting_loud name) h) (fun _ he => he) fun d s₁ h₁ => ?_
  have hsame : s₁.history.Free closingEvents → linked s.links = linked s₁.links ∧
      processHandles files s = processHandles files s₁ := by
    intro hf
    obtain ⟨-, hcw, -, hfm⟩ := h₁ hf
    simp only [linked, Fs.links, processHandles, hcw, hfm, Option.elim_some, and_self]
  cases d with
  | none =>
    intro hf
    have hc := (h₁ hf).1
    rw [(hsame hf).1, (hsame hf).2] at hc
    exact hc.perm (handles_perm files s₁).symm
  | some d =>
    -- the old directory is closed before the new one takes its place
    show (do dirClose s₁.cwd; modify fun s => s.setCwd d; return true : Kernel Bool).wp _ _ _
    rw [wp_bind]
    have hrest : Accounts closingEvents s₁.links
        (handle (s₁.cwd.map (·.inode)) ++ d.inode :: handlesBesideCwd files s₁)
        (dirClose s₁.cwd) fun _ => d.inode :: handlesBesideCwd files s₁ := dirClose_accounts _
    have hclose := hrest s₁ fun hf => by
      have hc := (h₁ hf).1
      rw [(hsame hf).1, (hsame hf).2] at hc
      refine held_links (hc.perm (List.Perm.append_left _ ?_))
      exact ((processHandles_perm_cwd files s₁).cons d.inode).trans List.perm_middle.symm
    refine wp_mono (wp_and hclose (dirClose_steps setting_loud s₁.cwd s₁)) (fun _ he => he.1)
      fun _ s₂ h₂ => ?_
    obtain ⟨hc, hset⟩ := h₂
    intro hf
    have hhandles : handles files (s₂.setCwd d)
        = files.map (·.inode) ++ (d.inode :: (s₁.cwds.eraseP (·.1 == s₁.current)).map (·.2.inode))
          ++ linked s₁.links := by
      rw [handles, Fs.setCwd, hset.cwds, hset.current, hset.freeMapFile]
      rfl
    show Counted (handles files (s₂.setCwd d)) (s₂.setCwd d)
    rw [hhandles]
    have hcwd : Counted _ (s₂.setCwd d) := (hc hf).counted.congr rfl rfl
    exact hcwd.perm (List.perm_append_comm.trans (List.perm_middle.symm.append_right _))

theorem handles_congr {files : List File} {s s' : Fs} (hcw : s'.cwds = s.cwds)
    (hfm : s'.freeMapFile = s.freeMapFile) : handles files s' = handles files s := by
  rw [handles, handles, hcw, hfm]

/-- Requests do not make events forgotten. -/
theorem Request.serveAll_events (rs : List Request) : ∀ files : List File,
    Steps (fun s s' => s.history.Le s'.history) (fun s e => s.history.Le e.history)
      (serveAll rs files) := by
  have hserve : ∀ (r : Request) (files : List File),
      Steps (fun s s' => s.history.Le s'.history) (fun s e => s.history.Le e.history)
        (r.serve files) := by
    intro r files
    cases r with
    | schedule thread =>
      exact events_loud.bind (fun s => List.Subset.refl _) fun _ => events_loud.pure _
    | create path initialSize dirFlag =>
      exact events_loud.bind (filesysCreate_steps events_loud _ _ _) fun _ => events_loud.pure _
    | «open» name =>
      exact events_loud.bind (filesysOpen_steps events_loud _) fun _ => events_loud.pure _
    | close n =>
      rw [Request.serve_close]
      cases files[n]? with
      | none => exact events_loud.pure _
      | some f =>
        exact events_loud.bind (fileClose_steps events_loud _) fun _ => events_loud.pure _
    | remove name =>
      exact events_loud.bind (filesysRemove_steps events_loud _) fun _ => events_loud.pure _
    | cd name =>
      exact events_loud.bind (filesysCd_steps events_loud (fun s _ => List.Subset.refl _) _)
        fun _ => events_loud.pure _
  induction rs with
  | nil => exact fun files => events_loud.pure _
  | cons r rs ih => exact fun files => events_loud.bind (hserve r files) fun files => ih files

theorem Request.serve_keepsAccounts {files : List File} {s : Fs} (r : Request)
    (h : Settled files s) :
    KeepsAccounts (r.serve files) Settled s := by
  have hperm := handles_perm files s
  have hcwd := holdsCwd_links files s
  -- calls that end with the handles they started with
  have hkeep : ∀ {α : Type} {x : Kernel α},
      Accounts closingEvents s.links (processHandles files s) x
        (fun _ => processHandles files s) →
      Steps SameSetting (fun _ _ => True) x →
      KeepsAccounts (do let _ ← x; return files) Settled s := by
    intro α x hx hset
    show (x >>= fun _ => pure files).wp _ _ _
    rw [wp_bind]
    refine wp_mono (keepsAccounts_of_accounts hx hset h.counted) (fun _ he => he)
      fun _ s' h' hf => ?_
    obtain ⟨hc, hcw, -, hfm⟩ := h' hf
    refine ⟨?_, h.writable⟩
    rw [handles_congr hcw hfm]
    exact hc.perm hperm.symm
  cases r with
  | schedule thread => exact fun _ => ⟨h.counted.congr rfl rfl, h.writable⟩
  | create path initialSize dirFlag =>
    exact hkeep (filesysCreate_accounts hcwd _ _ _) (filesysCreate_steps setting_loud _ _ _)
  | «open» name =>
    show (filesysOpen name >>= fun file => pure (file.toList ++ files)).wp _ _ _
    rw [wp_bind]
    refine wp_mono (wp_and (keepsAccounts_of_accounts (filesysOpen_accounts hcwd name)
      (filesysOpen_steps setting_loud name) h.counted) (filesysOpen_writable name s))
      (fun _ he => he.1) fun f s' h' hf => ?_
    obtain ⟨⟨hc, hcw, -, hfm⟩, hw⟩ := And.intro (h'.1 hf) h'.2
    refine ⟨?_, ?_⟩
    · rw [handles_congr hcw hfm]
      refine hc.perm (List.Perm.trans ?_ (handles_perm (f.toList ++ files) s).symm)
      cases f with
      | none => exact List.Perm.refl _
      | some f => exact List.Perm.refl _
    · intro g hg
      rcases List.mem_append.mp hg with hg | hg
      · exact hw g (by simpa using hg)
      · exact h.writable g hg
  | close n =>
    rw [Request.serve_close]
    cases hn : files[n]? with
    | none => exact fun _ => h
    | some f =>
      have hw := h.writable f (List.mem_of_getElem? hn)
      have hp : (processHandles files s).Perm (f.inode :: processHandles (files.eraseIdx n) s) :=
        ((perm_cons_eraseIdx hn).map (·.inode)).append_right _
      show (fileClose f >>= fun _ => pure (files.eraseIdx n)).wp _ _ _
      rw [wp_bind]
      refine wp_mono (keepsAccounts_of_accounts ((fileClose_accounts hw).perm hp)
        (fileClose_steps setting_loud f) h.counted) (fun _ he => he) fun _ s' h' hf => ?_
      obtain ⟨hc, hcw, -, hfm⟩ := h' hf
      refine ⟨?_, fun g hg => h.writable g ((List.eraseIdx_sublist _ _).subset hg)⟩
      rw [handles_congr hcw hfm]
      exact hc.perm (handles_perm (files.eraseIdx n) s).symm
  | remove name =>
    exact hkeep (filesysRemove_accounts hcwd (fun w hw => Option.mem_some_iff.mp hw ▸ rfl) _)
      (filesysRemove_steps setting_loud _)
  | cd name =>
    show (filesysCd name >>= fun _ => pure files).wp _ _ _
    rw [wp_bind]
    exact wp_mono (filesysCd_keepsAccounts name h.counted) (fun _ he => he)
      fun _ s' h' hf => ⟨h' hf, h.writable⟩

theorem Request.serveAll_keepsAccounts (rs : List Request) :
    ∀ {files : List File} {s : Fs}, (s.history.Free closingEvents → Settled files s) →
      KeepsAccounts (serveAll rs files) Settled s := by
  induction rs with
  | nil => exact fun h => h
  | cons r rs ih =>
    intro files s h
    by_cases hf : s.history.Free closingEvents
    · show (r.serve files >>= fun files => serveAll rs files).wp _ _ _
      rw [wp_bind]
      exact wp_mono (r.serve_keepsAccounts (h hf)) (fun _ he => he) fun _ _ h' => ih h'
    · refine wp_mono (serveAll_events (r :: rs) files s) (fun _ hle hf' => ?_) fun _ _ hle hf' => ?_
      · exact absurd (hf'.of_le hle) hf
      · exact absurd (hf'.of_le hle) hf

/-! ## Formatting -/

section

variable {links : Option Links} {hs : List Addr} {s : Fs} {i : Inode}

/-- Where no event is bad, the accounts are kept in every run. -/
theorem Accounts.always {α : Type} {x : Kernel α} {hs' : α → List Addr}
    (h : Accounts [] links hs x hs') (hc : Held links hs s) :
    x.wp (fun e => Fault.Safe links.isSome e.fault) (fun a s' => Held links (hs' a) s') s :=
  wp_mono (h s fun _ => hc) (fun _ he => he (List.forall_mem_nil _))
    fun _ _ h' => h' (List.forall_mem_nil _)

theorem mallocOrPanic_accounts : Accounts [] links hs mallocOrPanic fun _ => hs :=
  Accounts.of_quiet fun _ _ q _ => mallocOrPanic_steps q.toReading

/-- The relation that keeps the free map file. -/
theorem sameFreeMapFile : StepRel (fun s s' : Fs => s'.freeMapFile = s.freeMapFile)
    (fun (_ : Fs) (_ : Stop) => True) :=
  ⟨fun _ => rfl, fun h h' => h'.trans h, fun _ _ => trivial⟩

theorem freeMapInit_accounts (unused : Nat → Bool) :
    Accounts [] links hs (freeMapInit unused) fun _ => hs := by
  refine Accounts.bind (Accounts.gets _) fun bitCnt => Accounts.bind mallocOrPanic_accounts
    fun _ => Accounts.bind mallocOrPanic_accounts fun _ => Accounts.bind
      (show Accounts [] links hs _ fun _ => hs from fun s hc hf =>
        (hc hf).congr rfl rfl rfl rfl)
        fun _ => Accounts.bind (Accounts.of_quiet fun _ _ q _ => setFreeMap_steps q fun _ => rfl)
          fun _ => Accounts.of_quiet fun _ _ q _ => setFreeMap_steps q fun _ => rfl

theorem dirCreate_accounts (sector entryCnt : Nat) :
    Accounts [] links hs (dirCreate sector entryCnt) fun _ => hs := by
  refine Accounts.bind (Accounts.of_quiet fun _ _ q _ => inodeCreate_steps q _ _ _) fun _ =>
    Accounts.ite (Accounts.bind (inodeOpen_accounts _) fun r =>
      Accounts.bind (dirOpen_accounts r) fun d => ?_) (Accounts.pure _ rfl)
  cases d with
  | none => exact Accounts.pure _ rfl
  | some d =>
    exact Accounts.bind (Accounts.of_quiet fun _ _ q _ => uninitialised_steps q.toReading)
      fun _ => Accounts.bind (Accounts.of_quiet fun _ _ q h => writeEntry_steps q (h _ .head) _ _)
        fun _ => Accounts.bind (dirClose_accounts (some d)) fun _ => Accounts.pure _ rfl

theorem Counted.openInodes_nil (h : Counted [] s) : s.openInodes = [] :=
  List.eq_nil_iff_forall_not_mem.mpr fun i hi => List.not_mem_nil (h.held i hi)

/-- The accounts of one open inode with one handle. -/
theorem Counted.of_single (h : s.openInodes = [i]) (hc : i.openCnt = 1)
    (hlt : i.addr < s.nextAddr) : Counted [i.addr] s where
  sectors := by rw [h]; exact List.nodup_singleton _
  addrs := by rw [h]; exact List.nodup_singleton _
  fresh j hj := by
    rw [h, List.mem_singleton] at hj
    exact hj ▸ hlt
  count j hj := by
    rw [h, List.mem_singleton] at hj
    simp [hj, hc]
  held j hj := by
    rw [h, List.mem_singleton] at hj
    simp [hj]
  opened a ha := by
    rw [List.mem_singleton] at ha
    exact ⟨i, h ▸ List.mem_singleton_self i, ha.symm⟩

/-- One handle counts one open inode. -/
theorem Counted.single {a : Addr} (h : Counted [a] s) :
    ∃ i, s.openInodes = [i] ∧ i.addr = a ∧ i.openCnt = 1 := by
  obtain ⟨i, hm, rfl⟩ := h.opened a (List.mem_singleton_self a)
  have hone : ∀ j ∈ s.openInodes, j = i := fun j hj =>
    List.inj_on_of_nodup_map h.addrs hj hm (List.mem_singleton.mp (h.held j hj))
  have hreplicate := List.eq_replicate_of_mem hone
  have hnodup := h.addrs.of_map
  rw [hreplicate, List.nodup_replicate] at hnodup
  refine ⟨i, ?_, rfl, by simpa using h.count i hm⟩
  rw [hreplicate, Nat.le_antisymm hnodup (List.length_pos_of_mem hm)]
  rfl

/-- The only open inode is closed. It is not marked, so that no sector is released. -/
theorem inodeClose_single {E : Stop → Prop} (h : s.openInodes = [i]) (hc : i.openCnt = 1)
    (hr : i.removed = false) :
    (inodeClose (some i.addr)).wp E (fun _ s' => s' = { s with openInodes := [] }) s := by
  have hd : derefClose i.addr s = .ok (i, s) := by
    unfold derefClose Fs.inode?
    rw [h, List.find?_cons_of_pos (by simp)]
  unfold inodeClose
  rw [wp_bind]
  unfold wp
  rw [hd]
  show (if i.openCnt - 1 = 0 then _ else _ : Kernel Unit).wp _ _ _
  rw [hc, if_pos (Int.sub_self 1), wp_bind, wp_modify, hr, if_neg Bool.false_ne_true]
  show Fs.mk .. = Fs.mk ..
  simp [Fs.mapInode, h]

/-- The only open inode is the given one. -/
def OnlyOpen (a : Addr) (s : Fs) : Prop :=
  a < s.nextAddr ∧ ∃ sector data, s.openInodes = [⟨a, sector, 1, false, 0, data⟩]

/-- The first inode that is opened. -/
theorem inodeOpen_first {sector : Nat} (h : s.openInodes = []) :
    (inodeOpen sector).wp (fun e => Fault.Mild e.fault)
      (fun r s' => ∀ a, r = some a → OnlyOpen a s') s := by
  unfold inodeOpen recordIf
  rw [wp_bind, wp_modify, wp_bind, wp_gets]
  dsimp only
  rw [h, List.find?_nil]
  dsimp only
  rw [wp_bind]
  show (if s.env.mallocs s.clock.mallocs then _ else _ : Kernel (Option Addr)).wp _ _ _
  split
  · rw [wp_bind]
    refine wp_mono (readSector_steps store_reading sector _) (fun _ he => he) fun data s' h' => ?_
    obtain ⟨st, clock, rfl⟩ := h'
    rintro _ ⟨⟩
    exact ⟨Nat.lt_succ_self _, sector, data, rfl⟩
  · rintro _ ⟨⟩

/-- Without memory for the file, its inode is closed. -/
theorem fileOpen_first {r : Option Addr} (h : ∀ a, r = some a → OnlyOpen a s) :
    (fileOpen r).wp (fun e => Fault.Mild e.fault)
      (fun f s' => ∀ g, f = some g → g.denyWrite = false ∧ OnlyOpen g.inode s') s := by
  unfold fileOpen
  rw [wp_bind]
  refine wp_mono (malloc_steps store_reading s) (fun _ he => he) fun memory s₁ h₁ => ?_
  obtain ⟨st, clock, rfl⟩ := h₁
  cases r with
  | none => rintro _ ⟨⟩
  | some a =>
    obtain ⟨hlt, sector, data, hsingle⟩ := h a rfl
    cases memory with
    | true =>
      rintro _ ⟨⟩
      exact ⟨rfl, hlt, sector, data, hsingle⟩
    | false =>
      show (inodeClose (some a) >>= fun _ => pure none : Kernel (Option File)).wp _ _ _
      rw [wp_bind]
      refine wp_mono (inodeClose_single (i := ⟨a, sector, 1, false, 0, data⟩) hsingle rfl rfl)
        (fun _ he => he) fun _ s' _ => ?_
      rintro _ ⟨⟩

/-- The free map file is open, and is all that is. -/
def OnlyFreeMapOpen (s : Fs) : Prop :=
  ∃ f cwd, s.freeMapFile = some f ∧ f.denyWrite = false ∧
    Held (some ⟨[f.inode], cwd, true⟩) [] s

/-- The free map file is opened and stays open. -/
theorem openFreeMap_spec {x : File → Kernel Unit} (h : s.openInodes = [])
    (hx : ∀ f links, Known links [] f.inode → Accounts [] links [] (x f) fun _ => [])
    (hfm : ∀ f, Steps (fun s s' => s'.freeMapFile = s.freeMapFile) (fun _ _ => True) (x f)) :
    (do
      match ← fileOpen (← inodeOpen freeMapSector) with
      | none => fail .assertion
      | some file =>
        modify fun s => { s with freeMapFile := some file }
        x file).wp (fun e => Fault.Safe true e.fault) (fun _ s' => OnlyFreeMapOpen s') s := by
  show (inodeOpen freeMapSector >>= fun r => fileOpen r >>= _).wp _ _ _
  rw [wp_bind]
  refine wp_mono (inodeOpen_first h) (fun _ he => he.safe) fun r s₁ h₁ => ?_
  rw [wp_bind]
  refine wp_mono (fileOpen_first h₁) (fun _ he => he.safe) fun f s₂ h₂ => ?_
  cases f with
  | none => exact (by decide : Fault.Mild .assertion).safe
  | some f =>
    obtain ⟨hwritable, hlt, sector, data, hsingle⟩ := h₂ f rfl
    have hheld : Held (some ⟨[f.inode], s₂.cwd.toList.map (·.inode), true⟩) []
        { s₂ with freeMapFile := some f } := {
      counted := Counted.of_single (i := ⟨f.inode, sector, 1, false, 0, data⟩) hsingle
        rfl hlt
      freeMapFile := by
        rintro _ ⟨⟩ _ ⟨⟩
        exact List.mem_singleton_self _
      cwd := by
        rintro _ ⟨⟩ d hd
        exact List.mem_map.mpr ⟨d, Option.mem_toList.mpr hd, rfl⟩
      unmarked := by
        rintro _ ⟨⟩ - j hj
        rw [show j = _ from List.mem_singleton.mp (hsingle ▸ hj)] }
    show (x f).wp _ _ { s₂ with freeMapFile := some f }
    refine wp_mono (wp_and ((hx f _ fun _ => List.mem_singleton_self _).always hheld) (hfm f _))
      (fun _ he => he.1) fun _ s₃ h₃ => ?_
    exact ⟨f, _, h₃.2, hwritable, h₃.1⟩

theorem freeMapCreate_spec {cwd : List Addr} (h : Held (some ⟨[], cwd, true⟩) [] s) :
    freeMapCreate.wp (fun e => Fault.Safe true e.fault) (fun _ s' => OnlyFreeMapOpen s') s := by
  unfold freeMapCreate
  rw [wp_bind, wp_gets, wp_bind]
  have hcreate : Accounts [] (some ⟨[], cwd, true⟩) []
      (inodeCreate freeMapSector (byteCnt s.freeMap.bitCnt) false)
      fun _ => [] := Accounts.of_quiet fun _ _ q _ => inodeCreate_steps q _ _ _
  refine wp_mono (hcreate.always h) (fun _ he => he) fun ok s₁ h₁ => ?_
  cases ok with
  | false => exact (by decide : Fault.Mild .assertion).safe
  | true =>
    refine openFreeMap_spec h₁.counted.openInodes_nil (fun f links hf => ?_) fun f => ?_
    · refine Accounts.bind (Accounts.of_quiet fun _ _ q d => bitmapWriteWith_steps q
        (freeMapAllocate_steps q) (d _ hf)) fun _ => Accounts.ite (Accounts.pure _ rfl)
          (Accounts.fail (by decide))
    · refine Steps.bind sameFreeMapFile
        (fun s => wp_mono (bitmapWriteWith_steps setting_loud.toQuiet
          (freeMapAllocate_steps setting_loud.toQuiet) (setting_loud.derefs _) s)
            (fun _ _ => trivial) fun _ _ hq => hq.freeMapFile) fun _ =>
              Steps.ite (fun _ => rfl) fun _ => trivial

theorem freeMapClose_spec (h : OnlyFreeMapOpen s) :
    freeMapClose.wp (fun e => Fault.Safe true e.fault) (fun _ s' => s'.openInodes = []) s := by
  obtain ⟨f, cwd, hfm, hw, hheld⟩ := h
  obtain ⟨i, hsingle, haddr, hcnt⟩ := hheld.counted.single
  have hremoved := hheld.unmarked _ rfl rfl i (hsingle ▸ List.mem_singleton_self i)
  unfold freeMapClose
  rw [wp_bind, wp_gets, hfm]
  unfold fileClose
  dsimp only
  rw [hw, ← haddr, wp_bind, if_neg Bool.false_ne_true, wp_pure]
  refine wp_mono (inodeClose_single hsingle hcnt hremoved) (fun _ he => he) fun _ s' h' => ?_
  rw [h']

theorem freeMapOpen_spec (h : s.openInodes = []) :
    freeMapOpen.wp (fun e => Fault.Safe true e.fault) (fun _ s' => OnlyFreeMapOpen s') s := by
  refine openFreeMap_spec h (fun f links hf => ?_) fun f => ?_
  · refine Accounts.bind (Accounts.gets _) fun bitCnt => Accounts.ite ?_ (Accounts.pure _ rfl)
    refine Accounts.bind (Accounts.of_quiet fun _ _ q d =>
      inodeReadAt_steps q.toReading (d _ hf) _ _) fun bytes => Accounts.ite
        (fun s hc hf => (hc hf).congr rfl rfl rfl rfl) (Accounts.fail (by decide))
  · refine Steps.bind sameFreeMapFile (Steps.gets sameFreeMapFile _) fun bitCnt =>
      Steps.ite ?_ (Steps.pure sameFreeMapFile _)
    refine Steps.bind sameFreeMapFile (fun s => ?_) fun bytes =>
      Steps.ite (fun _ => rfl) fun _ => trivial
    exact wp_mono (inodeReadAt_steps setting_loud.toReading (setting_loud.derefs _) _ _ s)
      (fun _ h => h) fun _ _ hq => hq.freeMapFile

theorem doFormat_spec {cwd : List Addr} (h : Held (some ⟨[], cwd, true⟩) [] s) :
    doFormat.wp (fun e => Fault.Safe true e.fault) (fun _ s' => s'.openInodes = []) s := by
  show (freeMapCreate >>= fun _ => dirCreate rootDirSector 16 >>= fun ok =>
    if ok then freeMapClose else fail .assertion).wp _ _ _
  rw [wp_bind]
  refine wp_mono (freeMapCreate_spec h) (fun _ he => he) fun _ s₁ h₁ => ?_
  obtain ⟨f, cwd, hfm, hw, hheld⟩ := h₁
  rw [wp_bind]
  refine wp_mono (wp_and ((dirCreate_accounts _ _).always hheld)
    (dirCreate_steps setting_loud _ _ s₁)) (fun _ he => he.1) fun ok s₂ h₂ => ?_
  cases ok with
  | false => exact (by decide : Fault.Mild .assertion).safe
  | true => exact freeMapClose_spec ⟨f, cwd, h₂.2.freeMapFile.trans hfm, hw, h₂.1⟩

end

theorem cwds_starting : Starting (fun s s' : Fs => s'.cwds = s.cwds) (fun _ _ => True) where
  refl _ := rfl
  trans h h' := h'.trans h
  fault _ h := h
  stop _ _ _ := trivial
  step _ _ _ _ := rfl
  freeMap _ _ _ := rfl
  history _ _ _ := rfl
  data _ _ _ := rfl
  releaseFree _ := trivial
  doubleClose _ := trivial
  useAfterFree _ := trivial
  inodes _ _ _ _ := rfl
  anyFreeMap _ _ := rfl
  freeMapFile _ _ := rfl

/-- After formatting, the free map file is open, and is all that is. -/
theorem filesysInit_keepsAccounts (env : Env) (unused : Nat → Bool) (disk : Disk) :
    KeepsAccounts (filesysInit true unused) (fun _ s' => Settled [] s') (boot env disk) := by
  have hboot : Held (some ⟨[], [], true⟩) [] (boot env disk) := by
    constructor
    · constructor <;> simp [boot, linked]
    all_goals simp [boot, Fs.cwd]
  have hopen : (filesysInit true unused).wp (fun e => Fault.Safe true e.fault)
      (fun _ s' => OnlyFreeMapOpen s') (boot env disk) := by
    show (freeMapInit unused >>= fun _ => doFormat >>= fun _ => freeMapOpen).wp _ _ _
    rw [wp_bind]
    refine wp_mono ((freeMapInit_accounts unused).always hboot) (fun _ he => he) fun _ s₁ h₁ => ?_
    rw [wp_bind]
    exact wp_mono (doFormat_spec h₁) (fun _ he => he) fun _ s₂ h₂ => freeMapOpen_spec h₂
  refine wp_mono (wp_and hopen (filesysInit_steps cwds_starting true unused _))
    (fun _ he _ => he.1) fun _ s' hq _ => ?_
  obtain ⟨⟨f, _, hfm, -, hheld⟩, hcwds⟩ := hq
  refine ⟨?_, by simp⟩
  rw [handles, show s'.cwds = [] from hcwds, hfm]
  exact hheld.counted

theorem runFormatted_keepsAccounts (env : Env) (unused : Nat → Bool) (disk : Disk)
    (rs : List Request) :
    KeepsAccounts (do filesysInit true unused; Request.serveAll rs []) Settled (boot env disk) := by
  show (filesysInit true unused >>= fun _ => Request.serveAll rs []).wp _ _ _
  rw [wp_bind]
  exact wp_mono (filesysInit_keepsAccounts env unused disk) (fun _ he => he)
    fun _ s h => Request.serveAll_keepsAccounts rs h

/-! ## The accounts of a whole run -/

/-- What holds between two operations: one open inode a sector, counted by its handles, and
no handle to a freed inode. -/
structure ReferencesExact (files : List File) (s : Fs) : Prop where
  one_per_sector : (s.openInodes.map (·.sector)).Nodup
  one_per_address : (s.openInodes.map (·.addr)).Nodup
  count : ∀ i ∈ s.openInodes, i.openCnt = (handles files s).count i.addr
  no_dangling : ∀ a ∈ handles files s, ∃ i ∈ s.openInodes, i.addr = a

/-- A run ends with exact reference counts, or stops before it reads or closes a freed inode. -/
def EndsExact : Except Stop (List File × Fs) → Prop
  | .ok (files, s) => ReferencesExact files s
  | .error e => e.fault ≠ .doubleClose ∧ e.fault ≠ .useAfterFree

/--
**Reference counts are exact until a directory is removed or a removed inode is opened.**

In every run on a formatted device in which no `dir_remove` finds a directory and no
`filesys_open` finds a removed inode, every state between operations has one `struct inode`
per open sector, counted exactly by the open files, the current directories and the free map
file, and no freed inode is read or closed.
-/
theorem references_exact (env : Env) (unused : Nat → Bool) (disk : Disk) (rs : List Request)
    (h : (outcomeHistory (runFormatted env unused disk rs)).Free closingEvents) :
    EndsExact (runFormatted env unused disk rs) := by
  have hrun := runFormatted_keepsAccounts env unused disk rs
  cases hr : runFormatted env unused disk rs with
  | error e =>
    rw [hr] at h
    have hsafe : Fault.Safe true e.fault := wp_error hrun hr h
    exact ⟨hsafe.1, hsafe.2 rfl⟩
  | ok r =>
    obtain ⟨files, s⟩ := r
    rw [hr] at h
    have hs : Settled files s := wp_ok hrun hr h
    exact ⟨hs.counted.sectors, hs.counted.addrs, hs.counted.count, hs.counted.opened⟩

/-- The file name `"a"`. -/
def nameA : CString := ⟨[97], by decide⟩

/-- A file is created, opened, removed while open, and closed. -/
theorem references_exact_removed_file :
    EndsExact (runFormatted (Env.calm 1) (fun _ => false) (Disk.blank 32)
      [.create nameA 0 false, .open nameA, .remove nameA, .cd ⟨[47], by decide⟩, .close 0]) :=
  references_exact _ _ _ _ (by decide +kernel)

/-- Whether some handle is to a freed inode. -/
def hasDangling : Except Stop (List File × Fs) → Bool
  | .ok (files, s) => (handles files s).any fun a => (s.inode? a).isNone
  | .error _ => false

theorem hasDangling_not_exact {r : Except Stop (List File × Fs)} (h : hasDangling r = true) :
    ¬ EndsExact r := by
  intro hexact
  cases r with
  | error e => cases h
  | ok r =>
    obtain ⟨a, ha, hnone⟩ := List.any_eq_true.mp h
    obtain ⟨i, hi, rfl⟩ := hexact.no_dangling a ha
    rw [Fs.inode?, Option.isNone_iff_eq_none] at hnone
    simpa using List.find?_eq_none.mp hnone i hi

/--
**Removing an open directory frees its inode under the open file.**

`dir_remove` opens the inode once and closes it twice, in `dir_close (target)` and at `done`.
-/
theorem remove_open_directory_dangles :
    ¬ EndsExact (runFormatted (Env.calm 1) (fun _ => false) (Disk.blank 32)
      [.create nameA 0 true, .open nameA, .remove nameA]) :=
  hasDangling_not_exact (by decide +kernel)

end Pintos.Filesys

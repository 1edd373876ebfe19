import Mathlib.Data.List.Nodup
import Mathlib.Data.List.Perm.Subperm
import Pintos.Logic.Lists
import Pintos.Properties.Palloc

/-!
# Blocks of memory

A group of pages has places for what can be handed out: the pages themselves, one big block, or the
blocks of an arena (`Span.places`). Each place is either held by somebody or a block in a free list.

* `Inv` — the groups with their headers, the free lists, and what is held.
* `Sound` — the same, with the groups left out.
* `Sound.malloc`, `Sound.free` — what `malloc` and `free` do to it.
-/

namespace Pintos.Malloc

open Pintos.Lib Pintos.Logic Pintos.Logic.Exec Pintos.Logic.Ram

/-! ## Places -/

/-- What somebody holds. -/
inductive Grant where
  /-- Pages of `palloc_get_multiple`. -/
  | pages (user : Bool) (addr cnt : Nat)
  /-- A block with room for `size` bytes. -/
  | block (addr size : Nat)
  deriving DecidableEq

namespace Grant

def addr : Grant → Nat
  | .pages _ addr _ => addr
  | .block addr _ => addr

/-- The number of bytes. -/
def room : Grant → Nat
  | .pages _ _ cnt => pgsize * cnt
  | .block _ size => size

/-- The addresses of its bytes. -/
def Has (g : Grant) : Nat → Prop := Range g.addr g.room

def Apart (g g' : Grant) : Prop := ∀ x, g.Has x → ¬ g'.Has x

theorem Apart.symm {g g' : Grant} (h : g.Apart g') : g'.Apart g := fun x hx hx' => h x hx' hx

instance : Std.Symm Apart := ⟨fun _ _ => Apart.symm⟩

end Grant

/-- The descriptors that `malloc_init` makes: the sizes of the blocks and their numbers. -/
def classes : List (Nat × Nat) :=
  [(16, 255), (32, 127), (64, 63), (128, 31), (256, 15), (512, 7), (1024, 3)]

/-- The size of the blocks of descriptor number `i`. -/
def sizeOf (i : Nat) : Nat := (classes.getD i (16, 255)).1

/-- Their number in an arena. -/
def countOf (i : Nat) : Nat := (classes.getD i (16, 255)).2

theorem getD_classes {P : Nat × Nat → Prop} (h : ∀ c ∈ classes, P c) (i : Nat) :
    P (classes.getD i (16, 255)) := by
  rw [List.getD_eq_getElem?_getD]
  cases hi : classes[i]? with
  | none => exact h _ (by decide)
  | some c => exact h c (List.mem_of_getElem? hi)

/-- The blocks of an arena are in its page. -/
theorem sizeOf_bounds (i : Nat) : 16 ≤ sizeOf i ∧ sizeOf i % 16 = 0 ∧ sizeOf i ≤ 1024 ∧
    1 ≤ countOf i ∧ countOf i * sizeOf i ≤ 4084 :=
  getD_classes (P := fun c => 16 ≤ c.1 ∧ c.1 % 16 = 0 ∧ c.1 ≤ 1024 ∧ 1 ≤ c.2 ∧ c.2 * c.1 ≤ 4084)
    (by decide) i

/-- The place of block number `j` of an arena at `a`. -/
def blockAt (i a j : Nat) : Grant := .block (blockAddr a j (sizeOf i)) (sizeOf i)

/-- What can be handed out of a group of pages. -/
def Span.places (s : Span) : List Grant :=
  match s.use with
  | .pages user cnt => [.pages user s.addr cnt]
  | .big cnt => [.block (s.addr + sizeofArena) (pgsize * cnt - sizeofArena)]
  | .arena i => (List.range (countOf i)).map (blockAt i s.addr)

theorem block_end {i j : Nat} (hj : j < countOf i) : j * sizeOf i + sizeOf i ≤ 4084 := by
  obtain ⟨-, -, -, -, h⟩ := sizeOf_bounds i
  calc j * sizeOf i + sizeOf i = (j + 1) * sizeOf i := (Nat.succ_mul _ _).symm
    _ ≤ countOf i * sizeOf i := Nat.mul_le_mul_right _ hj
    _ ≤ 4084 := h

/-- Whether the group starts with a `struct arena`. -/
def Use.headed : Use → Bool
  | .pages _ _ => false
  | _ => true

/-- A place is in its pages, and behind the header if there is one. -/
theorem Span.has_place {s : Span} (hcnt : 0 < s.cnt) {g : Grant} (hg : g ∈ s.places) {x : Nat}
    (hx : g.Has x) : s.Has (pgNo x) ∧ (s.use.headed = true → s.addr + sizeofArena ≤ x) := by
  obtain ⟨page, use⟩ := s
  obtain ⟨h1, h2⟩ := hx
  simp only [Span.Has, Span.cnt, Span.addr, pgNo, pgsize, sizeofArena] at hcnt ⊢
  cases use with
  | pages user cnt =>
    obtain rfl := List.mem_singleton.mp hg
    simp only [Grant.addr, Grant.room, Span.addr, pgsize] at h1 h2
    refine ⟨?_, fun hf => absurd hf Bool.false_ne_true⟩
    simp only [Use.cnt]
    omega
  | big cnt =>
    obtain rfl := List.mem_singleton.mp hg
    simp only [Grant.addr, Grant.room, Span.addr, pgsize, sizeofArena] at h1 h2
    simp only [Use.cnt] at hcnt ⊢
    omega
  | arena i =>
    obtain ⟨j, hj, rfl⟩ := List.mem_map.mp hg
    have hend := block_end (List.mem_range.mp hj)
    simp only [blockAt, blockAddr, Grant.addr, Grant.room, Span.addr, pgsize, sizeofArena]
      at h1 h2
    simp only [Use.cnt]
    omega

theorem Span.pairwise_places (s : Span) : s.places.Pairwise Grant.Apart := by
  obtain ⟨page, use⟩ := s
  cases use with
  | pages user cnt => exact List.pairwise_singleton _ _
  | big cnt => exact List.pairwise_singleton _ _
  | arena i =>
    refine List.Pairwise.map _ (fun j k hjk => ?_) List.pairwise_lt_range
    rintro x ⟨-, h2⟩ ⟨h3, -⟩
    have hle : (j + 1) * sizeOf i ≤ k * sizeOf i := Nat.mul_le_mul_right _ hjk
    rw [Nat.succ_mul] at hle
    simp only [blockAt, blockAddr, Grant.addr, Grant.room] at h2 h3
    omega

/-- All places are apart from each other. -/
theorem Pages.pairwise_places {pool : Bool → Pool} {spans : List Span} (hp : Pages pool spans) :
    (spans.flatMap Span.places).Pairwise Grant.Apart := by
  refine List.pairwise_flatMap.mpr ⟨fun s _ => s.pairwise_places, ?_⟩
  refine hp.apart.imp_of_mem fun {s t} hs ht hst g hg g' hg' x hx hx' => ?_
  obtain ⟨⟨h1, h2⟩, -⟩ := s.has_place (hp.within s hs).1 hg hx
  obtain ⟨⟨h3, h4⟩, -⟩ := t.has_place (hp.within t ht).1 hg' hx'
  rcases hst with h | h <;> omega

theorem Span.room_pos {s : Span} (hcnt : 0 < s.cnt) {g : Grant} (hg : g ∈ s.places) :
    g.Has g.addr := by
  refine ⟨Nat.le_refl _, ?_⟩
  obtain ⟨page, use⟩ := s
  cases use with
  | pages user cnt =>
    obtain rfl := List.mem_singleton.mp hg
    simp only [Span.cnt, Use.cnt] at hcnt
    simp only [Grant.addr, Grant.room, pgsize]
    omega
  | big cnt =>
    obtain rfl := List.mem_singleton.mp hg
    simp only [Span.cnt, Use.cnt] at hcnt
    simp only [Grant.addr, Grant.room, pgsize, sizeofArena]
    omega
  | arena i =>
    obtain ⟨j, hj, rfl⟩ := List.mem_map.mp hg
    have := (sizeOf_bounds i).1
    simp only [blockAt, Grant.addr, Grant.room]
    omega

theorem Pages.nodup_places {pool : Bool → Pool} {spans : List Span} (hp : Pages pool spans) :
    (spans.flatMap Span.places).Nodup := by
  refine hp.pairwise_places.imp_of_mem fun {g g'} hg hg' hap he => ?_
  obtain ⟨s, hs, hgs⟩ := List.mem_flatMap.mp hg
  exact hap _ (s.room_pos (hp.within s hs).1 hgs) (he ▸ s.room_pos (hp.within s hs).1 hgs)

/-! ## Headers -/

section

variable {h h' : Heap} {s t : Span} {spans rest : List Span} {gs gs' : List Grant} {g : Grant}
  {mem mem' : Ram} {d : Desc} {i a b : Nat}

theorem kept_setArena (mem : Ram) (a : Nat) (arena : Arena) :
    Kept (Range a sizeofArena) mem (setArena mem a arena) := by
  have hmono : ∀ k, k + 4 ≤ 12 → ∀ x, Range (a + k) 4 x → Range a sizeofArena x := by
    rintro k hk x ⟨h1, h2⟩
    exact ⟨by omega, by show x < a + 12; omega⟩
  exact ((kept_setWord _ _ _).mono (hmono 0 (by decide))).trans
    (((kept_setWord _ _ _).mono (hmono 4 (by decide))).trans
      ((kept_setWord _ _ _).mono (hmono 8 (by decide))))

theorem arenaAt_setArena {arena : Arena} (hmagic : arena.magic < 4294967296)
    (hdesc : arena.desc < 4294967296) (hcnt : arena.freeCnt < 4294967296) :
    arenaAt (setArena mem a arena) a = arena := by
  have h0 : (setArena mem a arena).word a = arena.magic := by
    rw [setArena, word_setWord_of_ne (by omega), word_setWord_of_ne (by omega),
      word_setWord hmagic]
  have h4 : (setArena mem a arena).word (a + 4) = arena.desc := by
    rw [setArena, word_setWord_of_ne (by omega), word_setWord hdesc]
  rw [arenaAt, h0, h4, setArena, word_setWord hcnt]

theorem arenaAt_kept {p : Nat → Prop} (hk : Kept p mem mem')
    (hp : ∀ x, Range a sizeofArena x → ¬ p x) : arenaAt mem' a = arenaAt mem a := by
  have hword : ∀ k, k + 4 ≤ 12 → mem'.word (a + k) = mem.word (a + k) := fun k hk' =>
    hk.word fun x hx => hp x ⟨by have := hx.1; omega, by have := hx.2; show x < a + 12; omega⟩
  rw [arenaAt, arenaAt, ← Nat.add_zero a, hword 0 (by decide), Nat.add_zero, hword 4 (by decide),
    hword 8 (by decide)]

/-- The number of free blocks in a page. -/
def Desc.freeIn (d : Desc) (page : Nat) : Nat := d.freeList.countP (pgNo · = page)

/-- The group starts with the header that it should. -/
def Span.Headed (mem : Ram) (descs : List Desc) (s : Span) : Prop :=
  match s.use with
  | .pages _ _ => True
  | .big cnt => arenaAt mem s.addr = ⟨arenaMagic, 0, cnt⟩
  | .arena i => ∃ d, descs[i]? = some d ∧ arenaAt mem s.addr = ⟨arenaMagic, i + 1, d.freeIn s.page⟩

theorem Span.Headed.congr {descs descs' : List Desc} (hs : s.Headed mem descs)
    (hmem : s.use.headed = true → arenaAt mem' s.addr = arenaAt mem s.addr)
    (hdescs : ∀ i d, s.use = .arena i → descs[i]? = some d →
      ∃ d', descs'[i]? = some d' ∧ d'.freeIn s.page = d.freeIn s.page) : s.Headed mem' descs' := by
  obtain ⟨page, use⟩ := s
  cases use with
  | pages user cnt => trivial
  | big cnt => exact (hmem rfl).trans hs
  | arena i =>
    obtain ⟨d, hd, harena⟩ := hs
    obtain ⟨d', hd', hfree⟩ := hdescs i d rfl hd
    exact ⟨d', hd', (hmem rfl).trans (hfree ▸ harena)⟩

/-! ## The invariant -/

/-- The blocks in a free list. -/
def Desc.frees (d : Desc) : List Grant := d.freeList.map fun b => .block b d.blockSize

/-- The blocks in the free lists. -/
def frees (descs : List Desc) : List Grant := descs.flatMap Desc.frees

/-- The allocators between two calls, where `gs` is what is held. -/
structure Inv (h : Heap) (spans : List Span) (gs : List Grant) : Prop where
  pages : Pages h.pool spans
  descs : h.descs.map (fun d => (d.blockSize, d.blocksPerArena)) = classes
  places : (gs ++ frees h.descs).Perm (spans.flatMap Span.places)
  headed : ∀ s ∈ spans, s.Headed h.mem h.descs

/-- No arena has free blocks only. -/
def Busy (h : Heap) (s : Span) : Prop :=
  ∀ i d, s.use = .arena i → h.descs[i]? = some d → d.freeIn s.page < countOf i

theorem Inv.perm_spans (hi : Inv h spans gs) (hperm : spans.Perm rest) : Inv h rest gs where
  pages := hi.pages.perm hperm
  descs := hi.descs
  places := hi.places.trans (hperm.flatMap_right _)
  headed s hs := hi.headed s (hperm.mem_iff.mpr hs)

theorem Inv.perm_grants (hi : Inv h spans gs) (hperm : gs.Perm gs') : Inv h spans gs' where
  pages := hi.pages
  descs := hi.descs
  places := (hperm.symm.append_right _).trans hi.places
  headed := hi.headed

theorem Inv.desc (hi : Inv h spans gs) (hd : h.descs[i]? = some d) :
    i < 7 ∧ d.blockSize = sizeOf i ∧ d.blocksPerArena = countOf i := by
  have hc : classes[i]? = some (d.blockSize, d.blocksPerArena) := by
    rw [← hi.descs, List.getElem?_map, hd, Option.map_some]
  refine ⟨(List.getElem?_eq_some_iff.mp hc).1, ?_, ?_⟩
  · rw [sizeOf, List.getD_eq_getElem?_getD, hc, Option.getD_some]
  · rw [countOf, List.getD_eq_getElem?_getD, hc, Option.getD_some]

theorem sizeOf_inj : ∀ i < 7, ∀ j < 7, sizeOf i = sizeOf j → i = j := by decide

theorem frees_set {descs : List Desc} (hd : descs[i]? = some d) :
    ∃ rest, (frees descs).Perm (d.frees ++ rest) ∧
      ∀ d', (frees (descs.set i d')).Perm (d'.frees ++ rest) := by
  induction descs generalizing i with
  | nil => cases hd
  | cons e descs ih =>
    cases i with
    | zero =>
      obtain rfl := Option.some.inj hd
      exact ⟨frees descs, List.Perm.refl _, fun _ => List.Perm.refl _⟩
    | succ i =>
      obtain ⟨rest, h1, h2⟩ := ih (i := i) hd
      exact ⟨e.frees ++ rest, (h1.append_left _).trans (List.perm_append_comm_assoc _ _ _),
        fun d' => ((h2 d').append_left _).trans (List.perm_append_comm_assoc _ _ _)⟩

theorem mem_frees {descs : List Desc} (hd : descs[i]? = some d) (hb : b ∈ d.freeList) :
    .block b d.blockSize ∈ frees descs :=
  List.mem_flatMap.mpr ⟨d, List.mem_of_getElem? hd, List.mem_map.mpr ⟨b, hb, rfl⟩⟩

theorem Inv.nodup (hi : Inv h spans gs) : (gs ++ frees h.descs).Nodup :=
  hi.places.nodup_iff.mpr hi.pages.nodup_places

/-- What is held or free is a place. -/
theorem Inv.mem_places (hi : Inv h spans gs) (hg : g ∈ gs ++ frees h.descs) :
    ∃ s ∈ spans, g ∈ s.places := List.mem_flatMap.mp (hi.places.mem_iff.mp hg)

/-- A place with the size of a descriptor's blocks is in an arena of this descriptor. -/
theorem Inv.arena_of_size (hi : Inv h spans gs) (hd : h.descs[i]? = some d) (hs : s ∈ spans)
    (hb : .block b d.blockSize ∈ s.places) :
    s.use = .arena i ∧ ∃ j < countOf i, b = blockAddr s.addr j (sizeOf i) := by
  obtain ⟨hi7, hsize, -⟩ := hi.desc hd
  have hheaded := hi.headed s hs
  have hcnt := (hi.pages.within s hs).1
  obtain ⟨page, use⟩ := s
  cases use with
  | pages user cnt => cases List.mem_singleton.mp hb
  | big cnt =>
    have heq := List.mem_singleton.mp hb
    rw [Grant.block.injEq, hsize] at heq
    obtain ⟨-, hmod, -⟩ := sizeOf_bounds i
    simp only [Span.cnt, Use.cnt] at hcnt
    simp only [pgsize, sizeofArena] at heq
    omega
  | arena k =>
    obtain ⟨e, he, -⟩ := hheaded
    obtain ⟨j, hj, heq⟩ := List.mem_map.mp hb
    rw [blockAt, Grant.block.injEq, hsize] at heq
    obtain rfl := sizeOf_inj k (hi.desc he).1 i hi7 heq.2
    exact ⟨rfl, j, List.mem_range.mp hj, heq.1.symm⟩

theorem pgNo_blockAddr (page : Nat) {j : Nat} (hj : j < countOf i) :
    pgNo (blockAddr (pgsize * page) j (sizeOf i)) = page := by
  have := block_end hj
  have := (sizeOf_bounds i).1
  simp only [pgNo, blockAddr, pgsize, sizeofArena]
  omega

theorem pgOfs_blockAddr {page j : Nat} (hj : j < countOf i) :
    pgOfs (blockAddr (pgsize * page) j (sizeOf i)) = sizeofArena + j * sizeOf i := by
  have := block_end hj
  have := (sizeOf_bounds i).1
  simp only [pgOfs, blockAddr, pgsize, sizeofArena]
  omega

/-- Groups with a page in common are the same. -/
theorem Pages.span_unique {pool : Bool → Pool} (hp : Pages pool spans) (hs : s ∈ spans)
    (ht : t ∈ spans) (page : Nat) (h1 : s.Has page) (h2 : t.Has page) : s = t := by
  by_contra hne
  obtain ⟨h1, h1'⟩ := h1
  obtain ⟨h2, h2'⟩ := h2
  rcases hp.apart.forall hs ht hne with h | h <;> omega

theorem Pages.span_eq {pool : Bool → Pool} (hp : Pages pool spans) (hs : s ∈ spans) (ht : t ∈ spans)
    (h : s.page = t.page) : s = t := by
  have hcnt := (hp.within s hs).1
  have hcnt' := (hp.within t ht).1
  exact hp.span_unique hs ht s.page ⟨by omega, by omega⟩ ⟨by omega, by omega⟩

/-- The header of a group is apart from all places. -/
theorem Pages.header_apart {pool : Bool → Pool} (hp : Pages pool spans) (hs : s ∈ spans)
    (hheaded : s.use.headed = true) (hg : g ∈ spans.flatMap Span.places) {x : Nat}
    (hx : Range s.addr sizeofArena x) : ¬ g.Has x := by
  intro hgx
  obtain ⟨t, ht, hgt⟩ := List.mem_flatMap.mp hg
  obtain ⟨hhas, hbehind⟩ := t.has_place (hp.within t ht).1 hgt hgx
  have hcnt := (hp.within s hs).1
  have hsx : s.Has (pgNo x) := by
    obtain ⟨h1, h2⟩ := hx
    simp only [Span.addr, pgsize, sizeofArena] at h1 h2
    simp only [Span.Has, pgNo, pgsize]
    omega
  obtain rfl := hp.span_unique hs ht _ hsx hhas
  have := hbehind hheaded
  have := hx.2
  omega

/-- The headers of two groups are apart. -/
theorem Pages.headers_apart {pool : Bool → Pool} (hp : Pages pool spans) (hs : s ∈ spans)
    (ht : t ∈ spans) (hne : t ≠ s) {x : Nat} (hx : Range t.addr sizeofArena x) :
    ¬ Range s.addr (pgsize * s.cnt) x := by
  intro hx'
  have hcnt := (hp.within t ht).1
  refine hne (hp.span_unique ht hs (pgNo x) ?_ ?_)
  · obtain ⟨h1, h2⟩ := hx
    simp only [Span.addr, pgsize, sizeofArena] at h1 h2
    simp only [Span.Has, pgNo, pgsize]
    omega
  · obtain ⟨h1, h2⟩ := hx'
    simp only [Span.addr, pgsize] at h1 h2
    simp only [Span.Has, pgNo, pgsize]
    omega

theorem Pages.header_setArena {pool : Bool → Pool} (hp : Pages pool spans) (hs : s ∈ spans)
    (ht : t ∈ spans) (hne : t ≠ s) (arena : Arena) :
    arenaAt (setArena mem s.addr arena) t.addr = arenaAt mem t.addr := by
  refine arenaAt_kept (kept_setArena _ _ _) fun x hx hx' => hp.headers_apart hs ht hne hx ?_
  have hcnt := (hp.within s hs).1
  obtain ⟨h1, h2⟩ := hx'
  simp only [sizeofArena] at h2
  exact ⟨h1, by simp only [pgsize]; omega⟩

theorem Inv.arena_header (hi : Inv h spans gs) (hs : s ∈ spans) (huse : s.use = .arena i)
    (hd : h.descs[i]? = some d) :
    arenaAt h.mem s.addr = ⟨arenaMagic, i + 1, d.freeIn s.page⟩ := by
  have hs' := hi.headed s hs
  rw [Span.Headed, huse] at hs'
  obtain ⟨e, he, harena⟩ := hs'
  obtain rfl := Option.some.inj (hd.symm.trans he)
  exact harena

/-- Free blocks of one descriptor differ. -/
theorem Inv.nodup_freeList (hi : Inv h spans gs) (hd : h.descs[i]? = some d) :
    d.freeList.Nodup := by
  obtain ⟨rest, hperm, -⟩ := frees_set hd
  have := (hperm.nodup_iff.mp (List.nodup_append.mp hi.nodup).2.1)
  exact List.Nodup.of_map _ (List.nodup_append.mp this).1

/-- A free block is in an arena of its descriptor. -/
theorem Inv.free_block (hi : Inv h spans gs) (hd : h.descs[i]? = some d) (hb : b ∈ d.freeList) :
    ∃ s ∈ spans, s.use = .arena i ∧ ∃ j < countOf i, b = blockAddr s.addr j (sizeOf i) := by
  obtain ⟨s, hs, hbs⟩ := hi.mem_places (List.mem_append_right _ (mem_frees hd hb))
  exact ⟨s, hs, hi.arena_of_size hd hs hbs⟩

/-- The blocks of an arena. -/
def blocks (i a : Nat) : List Nat :=
  (List.range (countOf i)).map fun j => blockAddr a j (sizeOf i)

theorem nodup_blocks (i a : Nat) : (blocks i a).Nodup := by
  refine (List.nodup_map_iff_inj_on List.nodup_range).mpr fun j _ k _ heq => ?_
  have hpos := (sizeOf_bounds i).1
  have : j * sizeOf i = k * sizeOf i := by simpa [blockAddr] using heq
  exact Nat.eq_of_mul_eq_mul_right (by omega) this

theorem length_blocks (i a : Nat) : (blocks i a).length = countOf i := by
  rw [blocks, List.length_map, List.length_range]

/-- The free blocks of a page are blocks of its arena. -/
theorem Inv.filter_subset (hi : Inv h spans gs) (hd : h.descs[i]? = some d) (hs : s ∈ spans) :
    d.freeList.filter (pgNo · = s.page) ⊆ blocks i s.addr := by
  intro b hb
  obtain ⟨hb, hpage⟩ := List.mem_filter.mp hb
  obtain ⟨t, ht, htuse, j, hj, rfl⟩ := hi.free_block hd hb
  rw [decide_eq_true_iff, Span.addr, pgNo_blockAddr _ hj] at hpage
  obtain rfl := hi.pages.span_eq ht hs hpage
  exact List.mem_map.mpr ⟨j, List.mem_range.mpr hj, rfl⟩

theorem Inv.freeIn_le (hi : Inv h spans gs) (hd : h.descs[i]? = some d) (hs : s ∈ spans) :
    d.freeIn s.page ≤ countOf i := by
  rw [Desc.freeIn, List.countP_eq_length_filter, ← length_blocks i s.addr]
  exact (((hi.nodup_freeList hd).filter _).subperm (hi.filter_subset hd hs)).length_le

/-! ## `block_to_arena` -/

theorem blockToArena_big {page cnt : Nat} (hpos : 0 < page)
    (harena : arenaAt h.mem (pgsize * page) = ⟨arenaMagic, 0, cnt⟩) :
    blockToArena (pgsize * page + sizeofArena) h = .ok (pgsize * page, h) := by
  have hround : pgRoundDown (pgsize * page + sizeofArena) = pgsize * page := by
    simp only [pgRoundDown, pgsize, sizeofArena]
    omega
  have hofs : pgOfs (pgsize * page + sizeofArena) = sizeofArena := by
    simp only [pgOfs, pgsize, sizeofArena]
    omega
  have haddr : pgsize * page ≠ 0 := Nat.ne_of_gt (Nat.mul_pos (by decide) hpos)
  rw [blockToArena, hround]
  rw [run_gets, harena, if_neg (by simp [haddr]), if_pos rfl, if_pos hofs]
  rfl

theorem blockToArena_small {page j cnt : Nat} (hpos : 0 < page) (hj : j < countOf i)
    (hd : h.descs[i]? = some d) (hsize : d.blockSize = sizeOf i)
    (harena : arenaAt h.mem (pgsize * page) = ⟨arenaMagic, i + 1, cnt⟩) :
    blockToArena (blockAddr (pgsize * page) j (sizeOf i)) h = .ok (pgsize * page, h) := by
  have hround : pgRoundDown (blockAddr (pgsize * page) j (sizeOf i)) = pgsize * page := by
    have := pgNo_blockAddr page hj
    rw [pgNo] at this
    rw [pgRoundDown, this, Nat.mul_comm]
  have hend := block_end hj
  have halign : sizeT (sizeofArena + j * sizeOf i + 4294967296 - sizeofArena) % sizeOf i = 0 := by
    have : sizeT (sizeofArena + j * sizeOf i + 4294967296 - sizeofArena) = j * sizeOf i := by
      simp only [sizeT, sizeofArena]
      omega
    rw [this, Nat.mul_mod_left]
  have haddr : pgsize * page ≠ 0 := Nat.ne_of_gt (Nat.mul_pos (by decide) hpos)
  rw [blockToArena, hround]
  rw [run_gets, harena, if_neg (by simp [haddr]), if_neg (Nat.succ_ne_zero i), run_gets]
  simp only [Nat.add_sub_cancel, hd]
  rw [pgOfs_blockAddr hj, hsize, if_pos halign]
  rfl

/-- The assertions of `arena_to_block` hold for the blocks of an arena. -/
theorem arenaToBlock_run {j : Nat} (ha : a ≠ 0) (hd : h.descs[i]? = some d)
    (hmagic : (arenaAt h.mem a).magic = arenaMagic) (hdesc : (arenaAt h.mem a).desc = i + 1)
    (hj : j < d.blocksPerArena) : arenaToBlock a j h = .ok (blockAddr a j d.blockSize, h) := by
  rw [arenaToBlock, run_gets, if_neg (not_or_intro ha (not_not_intro hmagic)), run_gets, hdesc]
  simp only [Nat.add_sub_cancel, hd, if_pos hj]
  rfl

/-- A loop over the blocks of an arena. -/
theorem blocks_run {f : List Nat → Nat → List Nat} (ha : a ≠ 0) (hd : h.descs[i]? = some d)
    (hmagic : (arenaAt h.mem a).magic = arenaMagic) (hdesc : (arenaAt h.mem a).desc = i + 1)
    (list : List Nat) :
    ((List.range d.blocksPerArena).foldlM (fun list idx => do return f list (← arenaToBlock a idx))
      list : Exec Heap Stop (List Nat)) h = .ok ((List.range d.blocksPerArena).foldl
        (fun list idx => f list (blockAddr a idx d.blockSize)) list, h) :=
  run_foldlM (fun _ _ hj => run_bind
    (arenaToBlock_run ha hd hmagic hdesc (List.mem_range.mp hj))) list

/-! ## A block out of a free list -/

theorem Span.Headed.set {descs : List Desc} {d' : Desc} (ht : t.Headed mem descs)
    (hd : descs[i]? = some d) (hfree : d'.freeIn t.page = d.freeIn t.page)
    (hmem : t.use.headed = true → arenaAt mem' t.addr = arenaAt mem t.addr) :
    t.Headed mem' (descs.set i d') := by
  refine ht.congr hmem fun k e _ he => ?_
  rw [List.getElem?_set]
  by_cases hik : i = k
  · subst hik
    obtain rfl := Option.some.inj (hd.symm.trans he)
    rw [if_pos rfl, if_pos (List.getElem?_eq_some_iff.mp hd).1]
    exact ⟨d', rfl, hfree⟩
  · rw [if_neg hik]
    exact ⟨e, he, rfl⟩

theorem Busy.set {d' : Desc} (ht : Busy h t) (hd : h.descs[i]? = some d)
    (hdescs : h'.descs = h.descs.set i d') (hfree : d'.freeIn t.page ≤ d.freeIn t.page) :
    Busy h' t := by
  intro k e huse he
  rw [hdescs, List.getElem?_set] at he
  by_cases hik : i = k
  · subst hik
    rw [if_pos rfl, if_pos (List.getElem?_eq_some_iff.mp hd).1] at he
    obtain rfl := Option.some.inj he
    exact Nat.lt_of_le_of_lt hfree (ht i d huse hd)
  · rw [if_neg hik] at he
    exact ht k e huse he

theorem descs_set (hi : Inv h spans gs) (hd : h.descs[i]? = some d) (freeList : List Nat) :
    (h.descs.set i { d with freeList }).map (fun d => (d.blockSize, d.blocksPerArena))
      = classes := by
  rw [List.map_set, ← hi.descs]
  exact set_getElem?_self (by rw [List.getElem?_map, hd]; rfl)

theorem Inv.free_lt (hi : Inv h spans gs) (hd : h.descs[i]? = some d) (hs : s ∈ spans) :
    d.freeIn s.page < 256 := by
  have hle : countOf i ≤ 255 := getD_classes (P := fun c => c.2 ≤ 255) (by decide) i
  have := hi.freeIn_le hd hs
  omega

/-- A header that is written is apart from what is held. -/
theorem Inv.kept_header (hi : Inv h spans gs) (hs : s ∈ spans) (hheaded : s.use.headed = true)
    (arena : Arena) :
    Kept (fun x => ∀ g ∈ gs, ¬ g.Has x) h.mem (setArena h.mem s.addr arena) :=
  (kept_setArena _ _ _).mono fun _ hx _ hg => hi.pages.header_apart hs hheaded
    (hi.places.mem_iff.mp (List.mem_append_left _ hg)) hx

theorem Inv.pos (hi : Inv h spans gs) (hs : s ∈ spans) : 0 < s.page := hi.pages.pos hs

/-- The first block of a free list is handed out. -/
theorem Inv.popBlock (hi : Inv h spans gs) {list : List Nat} (hd : h.descs[i]? = some d)
    (hlist : d.freeList = b :: list) :
    (popBlock i).wp (fun _ => False) (fun r h' => r = some b ∧
      Inv h' spans (.block b (sizeOf i) :: gs) ∧
      (∀ s ∈ spans, s.page = pgNo b ∨ Busy h s → Busy h' s) ∧
      Kept (fun x => ∀ g ∈ gs, ¬ g.Has x) h.mem h'.mem) h := by
  have hb : b ∈ d.freeList := hlist ▸ List.mem_cons_self
  obtain ⟨hi7, hsize, hcount⟩ := hi.desc hd
  obtain ⟨s, hs, huse, j, hj, rfl⟩ := hi.free_block hd hb
  have hpage : pgNo (blockAddr s.addr j (sizeOf i)) = s.page := pgNo_blockAddr _ hj
  have hheaded : s.use.headed = true := by rw [huse]; rfl
  have harena := hi.arena_header hs huse hd
  obtain ⟨d', hd'⟩ : ∃ d', d' = { d with freeList := list } := ⟨_, rfl⟩
  have hfree : ∀ page, d.freeIn page = d'.freeIn page + if page = s.page then 1 else 0 := by
    intro page
    simp only [Desc.freeIn, hlist, hd', List.countP_cons, hpage, decide_eq_true_iff,
      eq_comm (a := s.page)]
  have hlt := hi.free_lt hd hs
  have hone := hfree s.page
  rw [if_pos rfl] at hone
  have hcnt : sizeT (d.freeIn s.page + 4294967295) = d'.freeIn s.page := by
    rw [sizeT]
    omega
  obtain ⟨mem', hmem'⟩ : ∃ mem', mem' = setArena h.mem s.addr
      ⟨arenaMagic, i + 1, d'.freeIn s.page⟩ := ⟨_, rfl⟩
  -- the run
  have hrun : Malloc.popBlock i h = .ok (some (blockAddr s.addr j (sizeOf i)),
      (h.setDescs (h.descs.set i d')).setMem mem') := by
    rw [Malloc.popBlock]
    obtain ⟨bs, bpa, fl⟩ := d
    obtain rfl : fl = _ := hlist
    rw [run_gets, hd]
    simp only
    rw [← hd', run_modify]
    refine (run_bind (blockToArena_small (h := h.setDescs (h.descs.set i d')) (d := d') (hi.pos hs)
      hj ?_ (by rw [hd']; exact hsize) harena)).trans ?_
    · show (h.descs.set i d')[i]? = _
      rw [List.getElem?_set_self (List.getElem?_eq_some_iff.mp hd).1]
    · rw [run_modify]
      show Except.ok (_, (h.setDescs (h.descs.set i d')).setMem (setArena h.mem s.addr
        { arenaAt h.mem s.addr with
          freeCnt := sizeT ((arenaAt h.mem s.addr).freeCnt + 4294967295) })) = _
      rw [harena, hmem', hcnt]
  rw [wp, hrun]
  refine ⟨rfl, ⟨hi.pages, ?_, ?_, fun t ht => ?_⟩, fun t ht hor => ?_, ?_⟩
  · rw [hd']
    exact descs_set hi hd list
  · obtain ⟨rest, h1, h2⟩ := frees_set hd
    refine List.Perm.trans ?_ hi.places
    have hcons : d.frees = .block (blockAddr s.addr j (sizeOf i)) (sizeOf i) :: d'.frees := by
      rw [Desc.frees, Desc.frees, hlist, hd', List.map_cons, hsize]
    rw [hcons] at h1
    calc (.block _ (sizeOf i) :: gs) ++ frees (h.descs.set i d')
        |>.Perm (.block _ (sizeOf i) :: (gs ++ (d'.frees ++ rest))) := ((h2 d').append_left gs).cons _
      _ |>.Perm (gs ++ .block _ (sizeOf i) :: (d'.frees ++ rest)) := List.perm_middle.symm
      _ |>.Perm (gs ++ frees h.descs) := h1.symm.append_left gs
  · by_cases hts : t = s
    · subst hts
      rw [Span.Headed, huse]
      refine ⟨d', List.getElem?_set_self (List.getElem?_eq_some_iff.mp hd).1, ?_⟩
      show arenaAt mem' t.addr = _
      have hmagic : arenaMagic < 4294967296 := by decide
      rw [hmem', arenaAt_setArena hmagic (by simp only; omega) (by simp only; omega)]
    · have hne : t.page ≠ s.page := fun he => hts (hi.pages.span_eq ht hs he)
      refine (hi.headed t ht).set hd (by rw [hfree, if_neg hne, Nat.add_zero]) fun _ => ?_
      exact hmem' ▸ hi.pages.header_setArena hs ht hts _
  · rcases hor with hp | hbusy
    · rw [hpage] at hp
      intro k e huse' he
      obtain rfl := hi.pages.span_eq ht hs hp
      obtain rfl : i = k := Use.arena.inj (huse.symm.trans huse')
      have he : (h.descs.set i d')[i]? = some e := he
      rw [List.getElem?_set_self (List.getElem?_eq_some_iff.mp hd).1] at he
      obtain rfl := Option.some.inj he
      have := hi.freeIn_le hd ht
      omega
    · exact hbusy.set hd rfl (by rw [hfree]; exact Nat.le_add_right _ _)
  · rw [hmem']
    exact hi.kept_header hs hheaded _

/-! ## `malloc` -/

theorem foldl_append_map {α β : Type} (f : α → β) (list : List α) (l : List β) :
    list.foldl (fun l a => l ++ [f a]) l = l ++ list.map f := by
  induction list generalizing l with
  | nil => exact (List.append_nil l).symm
  | cons a list ih => rw [List.foldl_cons, ih, List.append_assoc, List.map_cons]; rfl

theorem countP_blocks (i page page' : Nat) :
    (blocks i (pgsize * page)).countP (pgNo · = page') = if page' = page then countOf i else 0 := by
  have hall : ∀ b ∈ blocks i (pgsize * page), pgNo b = page := fun b hb => by
    obtain ⟨j, hj, rfl⟩ := List.mem_map.mp hb
    exact pgNo_blockAddr _ (List.mem_range.mp hj)
  by_cases hp : page' = page
  · rw [if_pos hp, ← length_blocks i (pgsize * page)]
    exact List.countP_eq_length.mpr fun b hb => decide_eq_true ((hall b hb).trans hp.symm)
  · rw [if_neg hp]
    exact List.countP_eq_zero.mpr fun b hb hc =>
      hp ((of_decide_eq_true hc).symm.trans (hall b hb))

/-- Pages that have just been got are apart from what is held. -/
theorem Inv.kept_new (hi : Inv h spans gs) (hp : Pages h'.pool (s :: spans))
    (hk : Kept (Range s.addr (pgsize * s.cnt)) mem mem') :
    Kept (fun x => ∀ g ∈ gs, ¬ g.Has x) mem mem' := by
  refine hk.mono fun x hx g hg hgx => ?_
  obtain ⟨t, ht, hgt⟩ := hi.mem_places (List.mem_append_left _ hg)
  have hhas := (t.has_place (hi.pages.within t ht).1 hgt hgx).1
  have hs : s.Has (pgNo x) := by
    obtain ⟨h1, h2⟩ := hx
    simp only [Span.addr, pgsize] at h1 h2
    simp only [Span.Has, pgNo, pgsize]
    omega
  rcases (List.pairwise_cons.mp hp.apart).1 t ht with hap | hap
  · have := hs.2
    have := hhas.1
    omega
  · have := hs.1
    have := hhas.2
    omega

/-- Writes to pages that have just been got do not reach a header. -/
theorem Inv.header_new (hp : Pages h'.pool (s :: spans)) (ht : t ∈ spans)
    (hk : Kept (Range s.addr (pgsize * s.cnt)) mem mem') :
    arenaAt mem' t.addr = arenaAt mem t.addr := by
  have hne : t ≠ s := by
    rintro rfl
    have := (hp.within t List.mem_cons_self).1
    rcases (List.pairwise_cons.mp hp.apart).1 t ht with hap | hap <;> omega
  exact arenaAt_kept hk fun x hx =>
    hp.headers_apart List.mem_cons_self (List.mem_cons_of_mem _ ht) hne hx

theorem kept_header_pages (page : Nat) {cnt : Nat} (hcnt : 0 < cnt) (arena : Arena) :
    Kept (Range (pgsize * page) (pgsize * cnt)) mem (setArena mem (pgsize * page) arena) := by
  refine (kept_setArena _ _ _).mono fun x hx => ⟨hx.1, ?_⟩
  have := hx.2
  simp only [pgsize, sizeofArena] at this ⊢
  omega

/-- A new arena has all its blocks in the free list. -/
theorem Inv.newArena (hi : Inv h spans gs) (hd : h.descs[i]? = some d) {page : Nat}
    (hp : Pages h'.pool (⟨page, .arena i⟩ :: spans)) (hdescs : h'.descs = h.descs)
    (hk : Kept (Range (pgsize * page) (pgsize * 1)) h.mem h'.mem) :
    (newArena i d (pgsize * page)).wp (fun _ => False) (fun _ h'' =>
      Inv h'' (⟨page, .arena i⟩ :: spans) gs ∧
      h''.descs[i]? = some { d with freeList := d.freeList ++ blocks i (pgsize * page) } ∧
      (∀ t ∈ spans, Busy h t → Busy h'' t) ∧
      Kept (Range (pgsize * page) (pgsize * 1)) h.mem h''.mem) h' := by
  obtain ⟨hi7, hsize, hcount⟩ := hi.desc hd
  have hlt : i < h.descs.length := (List.getElem?_eq_some_iff.mp hd).1
  obtain ⟨d', hd'⟩ : ∃ d', d' = { d with freeList := d.freeList ++ blocks i (pgsize * page) } :=
    ⟨_, rfl⟩
  obtain ⟨mem, hmem⟩ : ∃ mem, mem = setArena h'.mem (pgsize * page) ⟨arenaMagic, i + 1, countOf i⟩ :=
    ⟨_, rfl⟩
  have hnew : arenaAt mem (pgsize * page) = ⟨arenaMagic, i + 1, countOf i⟩ := by
    have hcount : countOf i ≤ 255 := getD_classes (P := fun c => c.2 ≤ 255) (by decide) i
    have hmagic : arenaMagic < 4294967296 := by decide
    exact hmem ▸ arenaAt_setArena hmagic (by simp only; omega) (by simp only; omega)
  have hrun : Malloc.newArena i d (pgsize * page) h'
      = .ok ((), (h'.setMem mem).setDescs (h.descs.set i d')) := by
    rw [Malloc.newArena, run_modify, hcount, ← hmem, ← hcount]
    refine (run_bind (blocks_run (f := fun list b => list ++ [b]) (h := h'.setMem mem)
      (Nat.ne_of_gt (Nat.mul_pos (by decide) (hp.pos List.mem_cons_self))) (hdescs ▸ hd)
      (congrArg Arena.magic hnew) (congrArg Arena.desc hnew) _)).trans ?_
    rw [foldl_append_map, hsize, hcount, ← hdescs, hd', hsize, hcount]
    rfl
  rw [wp, hrun]
  have hk' : Kept (Range (pgsize * page) (pgsize * 1)) h.mem mem :=
    hk.trans (hmem ▸ kept_header_pages _ (by decide) _)
  have hne : ∀ t ∈ spans, t.page ≠ page := fun t ht he => by
    have hcnt := (hi.pages.within t ht).1
    rcases (List.pairwise_cons.mp hp.apart).1 t ht with hap | hap
    · have : page + 1 ≤ t.page := hap
      omega
    · have : t.page + t.cnt ≤ page := hap
      omega
  have hfree : ∀ p, d'.freeIn p = d.freeIn p + if p = page then countOf i else 0 := fun p => by
    rw [Desc.freeIn, hd', List.countP_append, countP_blocks]
    rfl
  -- no block of the page is in the free list yet, so that its header counts them all
  have hzero : d.freeIn page = 0 := List.countP_eq_zero.mpr fun b hb hc => by
    obtain ⟨t, ht, htuse, j, hj, rfl⟩ := hi.free_block hd hb
    exact hne t ht ((pgNo_blockAddr _ hj).symm.trans (of_decide_eq_true hc))
  refine ⟨⟨hp, ?_, ?_, fun t ht => ?_⟩, ?_, fun t ht hbusy => ?_, hk'⟩
  · rw [hd']
    exact descs_set hi hd _
  · obtain ⟨rest, h1, h2⟩ := frees_set hd
    have hfrees : d'.frees = d.frees ++ Span.places ⟨page, .arena i⟩ := by
      rw [Desc.frees, hd', List.map_append, Desc.frees, Span.places, blocks, List.map_map, hsize]
      rfl
    have hmove : (frees (h.descs.set i d')).Perm
        (Span.places ⟨page, .arena i⟩ ++ frees h.descs) := by
      refine (h2 d').trans ?_
      rw [hfrees]
      refine (List.perm_append_comm.append_right rest).trans ?_
      rw [List.append_assoc]
      exact h1.symm.append_left _
    refine (hmove.append_left gs).trans ?_
    rw [List.flatMap_cons]
    exact (List.perm_append_comm_assoc _ _ _).trans (hi.places.append_left _)
  · rcases List.mem_cons.mp ht with rfl | ht
    · refine ⟨d', List.getElem?_set_self hlt, ?_⟩
      show arenaAt mem (pgsize * page) = ⟨_, _, d'.freeIn page⟩
      rw [hfree, hzero, if_pos rfl, Nat.zero_add, hnew]
    · refine (hi.headed t ht).set hd (by rw [hfree, if_neg (hne t ht), Nat.add_zero]) fun _ => ?_
      exact Inv.header_new hp ht hk'
  · rw [← hd']
    exact List.getElem?_set_self hlt
  · exact hbusy.set hd rfl (Nat.le_of_eq (by rw [hfree, if_neg (hne t ht), Nat.add_zero]))

/-- The number of pages for a big block. -/
def pageCntFor (size : Nat) : Nat := divRoundUp (sizeT (size + sizeofArena)) pgsize

/-- The size of the block that `malloc` gives out for a request. -/
def roomFor (size : Nat) : Nat :=
  match classes.find? (size ≤ ·.1) with
  | some c => c.1
  | none => pgsize * pageCntFor size - sizeofArena

/-- The allocators between two calls. -/
def Sound (h : Heap) (gs : List Grant) : Prop :=
  ∃ spans, Inv h spans gs ∧ ∀ s ∈ spans, Busy h s

/-- What `malloc` may do. -/
def Mallocs (h : Heap) (gs : List Grant) (size : Nat) (r : Option Nat) (h' : Heap) : Prop :=
  match r with
  | none => h' = h
  | some p => Sound h' (.block p (roomFor size) :: gs) ∧
      Kept (fun x => ∀ g ∈ gs, ¬ g.Has x) h.mem h'.mem

theorem findIdx_classes (hi : Inv h spans gs) (size : Nat) :
    match h.descs[h.descs.findIdx fun d => size ≤ d.blockSize]? with
    | none => classes.find? (size ≤ ·.1) = none
    | some d => classes.find? (size ≤ ·.1) = some (d.blockSize, d.blocksPerArena) := by
  have hfind : classes.find? (size ≤ ·.1) = (h.descs.find? fun d => size ≤ d.blockSize).map
      fun d => (d.blockSize, d.blocksPerArena) := by
    rw [← hi.descs, List.find?_map]
    rfl
  rw [← List.find?_eq_getElem?_findIdx, hfind]
  cases h.descs.find? fun d => size ≤ d.blockSize with
  | none => rfl
  | some d => rfl

/-- A big block, on pages of its own. -/
theorem Inv.bigBlock (hi : Inv h spans gs) {page cnt : Nat} (hcnt : cnt < 4294967296)
    (hp : Pages h'.pool (⟨page, .big cnt⟩ :: spans)) (hdescs : h'.descs = h.descs)
    (hk : Kept (Range (pgsize * page) (pgsize * cnt)) h.mem h'.mem) :
    Inv (h'.setMem (setArena h'.mem (pgsize * page) ⟨arenaMagic, 0, cnt⟩))
      (⟨page, .big cnt⟩ :: spans)
      (.block (pgsize * page + sizeofArena) (pgsize * cnt - sizeofArena) :: gs) := by
  have hpos : 0 < cnt := (hp.within _ List.mem_cons_self).1
  have hmagic : arenaMagic < 4294967296 := by decide
  have hk' := hk.trans (kept_header_pages _ hpos ⟨arenaMagic, 0, cnt⟩)
  refine ⟨hp, ?_, ?_, fun t ht => ?_⟩
  · exact (congrArg _ hdescs).trans hi.descs
  · show (_ ++ frees h'.descs).Perm _
    rw [hdescs, List.flatMap_cons]
    exact hi.places.cons _
  · rcases List.mem_cons.mp ht with rfl | ht
    · exact arenaAt_setArena hmagic (show 0 < 4294967296 by decide) hcnt
    · refine (hi.headed t ht).congr (fun _ => Inv.header_new hp ht hk') fun k e _ he => ?_
      exact ⟨e, (congrArg (·[k]?) hdescs).trans he, rfl⟩

/-- `malloc` gives out a place that nobody holds, and changes nothing that is held. -/
theorem Sound.malloc (hs : Sound h gs) (size : Nat) :
    (malloc size).wp (fun _ => False) (fun r h' => Mallocs h gs size r h') h := by
  obtain ⟨spans, hi, hbusy⟩ := hs
  rw [Malloc.malloc, wp_ite]
  refine ⟨fun _ => rfl, fun _ => (wp_bind _ _).mpr ((wp_gets _).mpr ?_)⟩
  have hfind := findIdx_classes hi size
  cases hd : h.descs[h.descs.findIdx fun d => size ≤ d.blockSize]? with
  -- no class is large enough: whole pages
  | none =>
    rw [hd] at hfind
    simp only at hfind
    simp only [hd]
    refine (wp_bind _ _).mpr (wp_mono (hi.pages.getMultiple ⟨false, false, false⟩
      (.big (pageCntFor size)) rfl) (fun _ he => absurd he.2 Bool.false_ne_true) ?_)
    intro r h₁ hr
    cases r with
    | none => exact hr
    | some a =>
      obtain ⟨page, rfl, hp, hdescs, hk, -⟩ := hr
      have hcnt : pageCntFor size < 4294967296 := by
        rw [pageCntFor, divRoundUp, sizeT]
        exact Nat.lt_of_le_of_lt (Nat.div_le_self _ _) (Nat.mod_lt _ (by decide))
      have hpos : 0 < pageCntFor size := (hp.within _ List.mem_cons_self).1
      have hroom : roomFor size = pgsize * pageCntFor size - sizeofArena := by
        rw [roomFor, hfind]
      refine (wp_bind _ _).mpr ((wp_modify _).mpr ((wp_pure _).mpr ⟨⟨_, hroom ▸
        hi.bigBlock hcnt hp hdescs hk, fun t ht => ?_⟩, ?_⟩))
      · rcases List.mem_cons.mp ht with rfl | ht
        · intro k e huse
          cases huse
        · intro k e huse he
          exact hbusy t ht k e huse (hdescs ▸ he)
      · exact hi.kept_new hp (hk.trans (kept_header_pages _ hpos _))
  | some d =>
    rw [hd] at hfind
    simp only at hfind
    simp only [hd]
    obtain ⟨i, hidx⟩ : ∃ i, i = h.descs.findIdx fun d => size ≤ d.blockSize := ⟨_, rfl⟩
    rw [← hidx] at hd ⊢
    have hroom : roomFor size = sizeOf i := by
      rw [roomFor, hfind]
      exact (hi.desc hd).2.1
    refine (wp_ite _ _).mpr ⟨fun hempty => ?_, fun hne => ?_⟩
    · -- a new arena, whose first block is given out
      refine (wp_bind _ _).mpr (wp_mono (hi.pages.getMultiple ⟨false, false, false⟩
        (.arena i) rfl) (fun _ he => absurd he.2 Bool.false_ne_true) ?_)
      intro r h₁ hr
      cases r with
      | none => exact hr
      | some a =>
        obtain ⟨page, rfl, hp, hdescs, hk, -⟩ := hr
        refine (wp_bind _ _).mpr (wp_mono (hi.newArena hd hp hdescs hk) (fun _ he => he) ?_)
        rintro _ h₂ ⟨hi₂, hd₂, hbusy₂, hk₂⟩
        have hblocks : ∃ list, blocks i (pgsize * page)
            = blockAddr (pgsize * page) 0 (sizeOf i) :: list := by
          obtain ⟨n, hn⟩ : ∃ n, countOf i = n + 1 :=
            ⟨countOf i - 1, by have := (sizeOf_bounds i).2.2.2.1; omega⟩
          rw [blocks, hn, List.range_succ_eq_map]
          exact ⟨_, rfl⟩
        obtain ⟨list, hblocks⟩ := hblocks
        rw [hempty, List.nil_append, hblocks] at hd₂
        refine wp_mono (hi₂.popBlock hd₂ rfl) (fun _ he => he) ?_
        rintro _ h₃ ⟨rfl, hi₃, hbusy₃, hk₃⟩
        refine ⟨⟨_, hroom ▸ hi₃, fun t ht => hbusy₃ t ht ?_⟩, (hi.kept_new hp hk₂).trans hk₃⟩
        rcases List.mem_cons.mp ht with rfl | ht
        · exact Or.inl (pgNo_blockAddr _ (sizeOf_bounds i).2.2.2.1).symm
        · exact Or.inr (hbusy₂ t ht (hbusy t ht))
    · obtain ⟨b, list, hlist⟩ := List.exists_cons_of_ne_nil hne
      refine wp_mono (hi.popBlock hd hlist) (fun _ he => he) ?_
      rintro _ h₁ ⟨rfl, hi₁, hbusy₁, hk₁⟩
      exact ⟨⟨spans, hroom ▸ hi₁, fun t ht => hbusy₁ t ht (Or.inr (hbusy t ht))⟩, hk₁⟩

/-! ## `free` -/

/-- The memory of a place that is given back is written, and a place that is held stays. -/
theorem Inv.kept_given (hi : Inv h spans (g :: gs)) {p : Nat → Prop} (hk : Kept p mem mem')
    (hp : ∀ x, p x → g.Has x ∨ ∃ s ∈ spans, s.use.headed = true ∧ Range s.addr sizeofArena x) :
    Kept (fun x => ∀ g ∈ gs, ¬ g.Has x) mem mem' := by
  refine hk.mono fun x hx g' hg' => ?_
  rcases hp x hx with hgx | ⟨s, hs, hheaded, hsx⟩
  · have hpw := (hi.places.pairwise_iff Grant.Apart.symm).mpr hi.pages.pairwise_places
    exact (List.pairwise_cons.mp hpw).1 g' (List.mem_append_left _ hg') x hgx
  · exact hi.pages.header_apart hs hheaded
      (hi.places.mem_iff.mp (List.mem_append_left _ (List.mem_cons_of_mem _ hg'))) hsx

/-- A place that is held, and the group it is of. -/
theorem Inv.held (hi : Inv h spans (g :: gs)) :
    ∃ s rest, g ∈ s.places ∧ spans.Perm (s :: rest) := by
  obtain ⟨s, hs, hg⟩ := hi.mem_places (List.mem_append_left _ List.mem_cons_self)
  exact ⟨s, spans.erase s, hg, List.perm_cons_erase hs⟩

/-- What `free` does with a block that is not big. -/
theorem freeBlock_run (ha : a ≠ 0) (hd : h.descs[i]? = some d) {free cnt : Nat}
    (harena : arenaAt (h.mem.fill b d.blockSize 0xcc) a = ⟨arenaMagic, i + 1, free⟩)
    (hheader : arenaAt mem a = ⟨arenaMagic, i + 1, cnt⟩)
    (hcnt : sizeT (free + 1) = cnt) {list : List Nat}
    (hlist : list = (List.range d.blocksPerArena).map fun j => blockAddr a j d.blockSize)
    (hmem : mem = setArena (h.mem.fill b d.blockSize 0xcc) a ⟨arenaMagic, i + 1, cnt⟩) :
    (cnt < d.blocksPerArena → freeBlock i d a b h = .ok ((), (h.setMem mem).setDescs
      (h.descs.set i { d with freeList := b :: d.freeList }))) ∧
    (cnt = d.blocksPerArena → freeBlock i d a b h = pallocFreePage a ((h.setMem mem).setDescs
      (h.descs.set i { d with freeList := (b :: d.freeList).diff list }))) := by
  have hrun : freeBlock i d a b h = (do
      modify fun h => h.setMem mem
      if cnt ≥ d.blocksPerArena then
        if cnt = d.blocksPerArena then
          let freeList ← (List.range d.blocksPerArena).foldlM
            (fun list idx => do return list.erase (← arenaToBlock a idx)) (b :: d.freeList)
          modify fun h => h.setDescs (h.descs.set i { d with freeList })
          pallocFreePage a
        else
          Exec.throw .assertion
      else
        modify fun h => h.setDescs (h.descs.set i { d with freeList := b :: d.freeList }) :
      Exec Heap Stop Unit) h := by
    rw [freeBlock, run_modify, run_gets]
    have harena' : arenaAt (h.setMem (h.mem.fill b d.blockSize 0xcc)).mem a
        = ⟨arenaMagic, i + 1, free⟩ := harena
    simp only [harena', hcnt]
    rw [run_modify, run_modify, hmem]
    rfl
  refine ⟨fun hlt => ?_, fun heq => ?_⟩
  · rw [hrun, if_neg (by omega)]
    rfl
  · rw [hrun, run_modify, if_pos (by omega), if_pos heq]
    refine (run_bind (blocks_run (f := fun list b => list.erase b) (h := h.setMem mem) ha hd
      (congrArg Arena.magic hheader) (congrArg Arena.desc hheader) _)).trans ?_
    rw [hlist, List.diff_eq_foldl, List.foldl_map]
    rfl

/-- With the last block of an arena all its blocks are in the free list. -/
theorem Inv.all_free (hi : Inv h spans gs) (hd : h.descs[i]? = some d) (hs : s ∈ spans)
    (hnew : b ∉ d.freeList) (hb : b ∈ blocks i s.addr) (hpage : pgNo b = s.page)
    (hlast : d.freeIn s.page + 1 = countOf i) :
    (blocks i s.addr ++ (b :: d.freeList).diff (blocks i s.addr)).Perm (b :: d.freeList) := by
  have hcons : (b :: d.freeList).filter (pgNo · = s.page)
      = b :: d.freeList.filter (pgNo · = s.page) := List.filter_cons_of_pos (decide_eq_true hpage)
  have hsub : (b :: d.freeList).filter (pgNo · = s.page) ⊆ blocks i s.addr :=
    hcons ▸ List.cons_subset.mpr ⟨hb, hi.filter_subset hd hs⟩
  have hnd : ((b :: d.freeList).filter (pgNo · = s.page)).Nodup :=
    (List.nodup_cons.mpr ⟨hnew, hi.nodup_freeList hd⟩).filter _
  have hlen : (blocks i s.addr).length ≤ ((b :: d.freeList).filter (pgNo · = s.page)).length := by
    have hin : d.freeIn s.page = (d.freeList.filter (pgNo · = s.page)).length :=
      List.countP_eq_length_filter
    rw [hcons, List.length_cons, length_blocks]
    omega
  have hperm := (hnd.subperm hsub).perm_of_length_le hlen
  refine List.subperm_append_diff_self_of_count_le fun x hx => ?_
  rw [(nodup_blocks i s.addr).count, if_pos hx]
  exact List.count_pos_iff.mpr (List.mem_of_mem_filter (hperm.mem_iff.mpr hx))

/-- The header of an arena in which a block has been cleared, and the other headers. -/
theorem Inv.cleared (hi : Inv h (s :: rest) (.block b d.blockSize :: gs))
    (hd : h.descs[i]? = some d) (hb : .block b d.blockSize ∈ s.places) {cnt : Nat}
    (hcnt : cnt < 4294967296)
    (hmem : mem = setArena (h.mem.fill b d.blockSize 0xcc) s.addr ⟨arenaMagic, i + 1, cnt⟩) :
    arenaAt (h.mem.fill b d.blockSize 0xcc) s.addr = ⟨arenaMagic, i + 1, d.freeIn s.page⟩ ∧
    arenaAt mem s.addr = ⟨arenaMagic, i + 1, cnt⟩ ∧
    (∀ t ∈ rest, arenaAt mem t.addr = arenaAt h.mem t.addr) ∧
    Kept (fun x => ∀ g ∈ gs, ¬ g.Has x) h.mem mem := by
  have hs : s ∈ s :: rest := List.mem_cons_self
  obtain ⟨hi7, hsize, -⟩ := hi.desc hd
  obtain ⟨huse, j, hj, hbj⟩ := hi.arena_of_size hd hs hb
  have hheaded : s.use.headed = true := by rw [huse]; rfl
  have hcnt1 : s.cnt = 1 := by rw [Span.cnt, huse]; rfl
  have hmagic : arenaMagic < 4294967296 := by decide
  have hfill : Kept (Range b d.blockSize) h.mem (h.mem.fill b d.blockSize 0xcc) :=
    kept_fill _ _ _ _
  have hset : Kept (Range s.addr sizeofArena) (h.mem.fill b d.blockSize 0xcc) mem :=
    hmem ▸ kept_setArena _ _ _
  refine ⟨?_, ?_, fun t ht => ?_, ?_⟩
  · rw [← hi.arena_header hs huse hd]
    exact arenaAt_kept hfill fun x hx hx' => hi.pages.header_apart hs hheaded
      (List.mem_flatMap.mpr ⟨s, hs, hb⟩) hx hx'
  · rw [hmem, arenaAt_setArena hmagic (by simp only; omega) hcnt]
  · have hpage : Kept (Range s.addr (pgsize * s.cnt)) h.mem mem := by
      refine Kept.trans (hfill.mono fun x hx => ?_) (hmem ▸
        kept_header_pages s.page (show 0 < s.cnt by omega) _)
      obtain ⟨h1, h2⟩ := hx
      have hend := block_end hj
      rw [hsize] at h2
      rw [hbj, blockAddr] at h1 h2
      rw [hcnt1]
      simp only [Range, sizeofArena, pgsize] at h1 h2 ⊢
      omega
    exact Inv.header_new hi.pages ht hpage
  · exact hi.kept_given ((hfill.mono fun x hx => Or.inl hx).trans (hset.mono fun x hx =>
      Or.inr hx)) fun x hx => hx.imp id fun hx => ⟨s, hs, hheaded, hx⟩

/-- A block of an arena is given back, and with the last one the arena. -/
theorem Inv.freeBlock (hi : Inv h (s :: rest) (.block b d.blockSize :: gs))
    (hbusy : ∀ t ∈ s :: rest, Busy h t) (hd : h.descs[i]? = some d)
    (hb : .block b d.blockSize ∈ s.places) :
    (Malloc.freeBlock i d s.addr b).wp (fun _ => False) (fun _ h' =>
      Sound h' gs ∧ Kept (fun x => ∀ g ∈ gs, ¬ g.Has x) h.mem h'.mem) h := by
  have hs : s ∈ s :: rest := List.mem_cons_self
  obtain ⟨-, hsize, hcount⟩ := hi.desc hd
  obtain ⟨huse, j, hj, hbj⟩ := hi.arena_of_size hd hs hb
  have hpage : pgNo b = s.page := hbj ▸ pgNo_blockAddr _ hj
  have hcnt1 : s.cnt = 1 := by rw [Span.cnt, huse]; rfl
  have hlt := hi.free_lt hd hs
  have hnew : b ∉ d.freeList := fun hmem =>
    (List.nodup_cons.mp hi.nodup).1 (List.mem_append_right _ (mem_frees hd hmem))
  obtain ⟨mem, hmem⟩ : ∃ mem, mem = setArena (h.mem.fill b d.blockSize 0xcc) s.addr
      ⟨arenaMagic, i + 1, d.freeIn s.page + 1⟩ := ⟨_, rfl⟩
  obtain ⟨harena, hheader, hother, hkept⟩ := hi.cleared hd hb (by omega) hmem
  have hlist : blocks i s.addr
      = (List.range d.blocksPerArena).map fun j => blockAddr s.addr j d.blockSize := by
    rw [blocks, hsize, hcount]
  have haddr : s.addr ≠ 0 := Nat.ne_of_gt (Nat.mul_pos (by decide) (hi.pos hs))
  obtain ⟨hless, hfull⟩ := freeBlock_run haddr hd harena hheader
    (by rw [sizeT]; exact Nat.mod_eq_of_lt (by omega)) hlist hmem
  have hne : ∀ t ∈ rest, t.page ≠ s.page := fun t ht he => by
    have h1 := (hi.pages.within t (List.mem_cons_of_mem _ ht)).1
    have h2 := (hi.pages.within s hs).1
    rcases (List.pairwise_cons.mp hi.pages.apart).1 t ht with hap | hap <;> omega
  obtain ⟨others, hfrees, hset⟩ := frees_set hd
  have hplaces : s.places = (blocks i s.addr).map fun b => .block b d.blockSize := by
    rw [Span.places, huse, blocks, List.map_map, hsize]
    rfl
  by_cases hlast : d.freeIn s.page + 1 = countOf i
  · -- all blocks of the arena are free now
    obtain ⟨list, hlist⟩ : ∃ list, list = (b :: d.freeList).diff (blocks i s.addr) := ⟨_, rfl⟩
    obtain ⟨d', hd'⟩ : ∃ d', d' = { d with freeList := list } := ⟨_, rfl⟩
    have hperm : (blocks i s.addr ++ list).Perm (b :: d.freeList) :=
      hlist ▸ hi.all_free hd hs hnew (List.mem_map.mpr ⟨j, List.mem_range.mpr hj, hbj.symm⟩) hpage
        hlast
    have hfree : ∀ t ∈ rest, d'.freeIn t.page = d.freeIn t.page := fun t ht => by
      have hc := hperm.countP_eq (pgNo · = t.page)
      rw [List.countP_append, List.countP_cons, Span.addr, countP_blocks, if_neg (hne t ht), hpage,
        if_neg (by simpa using (hne t ht).symm), Nat.zero_add, Nat.add_zero] at hc
      rw [Desc.freeIn, hd', Desc.freeIn, hc]
    have hp : Pages ((h.setMem mem).setDescs (h.descs.set i d')).pool (s :: rest) := hi.pages
    have hwp := hp.freeMultiple
    rw [hcnt1] at hwp
    rw [wp, hfull (hlast.trans hcount.symm), ← hlist, ← hd']
    refine wp_mono hwp (fun _ he => he) ?_
    rintro _ h₁ ⟨hp₁, hdescs₁, hk₁⟩
    have hi₁ : Inv h₁ rest gs := by
      refine ⟨hp₁, ?_, ?_, fun t ht => ?_⟩
      · rw [hdescs₁, hd']
        exact descs_set hi hd _
      · rw [hdescs₁]
        refine (List.perm_append_left_iff s.places).mp ?_
        refine List.Perm.trans ?_ hi.places
        have hmove : (s.places ++ frees (h.descs.set i d')).Perm
            (.block b d.blockSize :: frees h.descs) := by
          refine ((hset d').append_left _).trans (List.Perm.trans ?_ (hfrees.symm.cons _))
          rw [← List.append_assoc, ← List.cons_append, hplaces, Desc.frees, hd', ← List.map_append]
          exact (hperm.map _).append_right _
        refine (List.perm_append_comm_assoc _ _ _).trans ?_
        exact (hmove.append_left gs).trans List.perm_middle
      · have hk₁' : Kept (Range s.addr (pgsize * s.cnt)) mem h₁.mem := hcnt1 ▸ hk₁
        have hkeep := Inv.header_new hp ht hk₁'
        rw [hdescs₁]
        exact (hi.headed t (List.mem_cons_of_mem _ ht)).set hd (hfree t ht) fun _ =>
          hkeep.trans (hother t ht)
    refine ⟨⟨rest, hi₁, fun t ht => ?_⟩, hkept.trans (hi₁.kept_new hp (hcnt1 ▸ hk₁))⟩
    exact (hbusy t (List.mem_cons_of_mem _ ht)).set hd hdescs₁ (Nat.le_of_eq (hfree t ht))
  · -- another block of the arena is held
    obtain ⟨d', hd'⟩ : ∃ d', d' = { d with freeList := b :: d.freeList } := ⟨_, rfl⟩
    have hfew := hbusy s hs i d huse hd
    have hone : d'.freeIn s.page = d.freeIn s.page + 1 := by
      rw [Desc.freeIn, hd', List.countP_cons, hpage, if_pos (decide_eq_true rfl)]
      rfl
    have hfree : ∀ t ∈ rest, d'.freeIn t.page = d.freeIn t.page := fun t ht => by
      rw [Desc.freeIn, hd', List.countP_cons, hpage, if_neg (by simpa using (hne t ht).symm)]
      rfl
    rw [wp, hless (by omega), ← hd']
    have hi₁ : Inv ((h.setMem mem).setDescs (h.descs.set i d')) (s :: rest) gs := by
      refine ⟨hi.pages, ?_, ?_, fun t ht => ?_⟩
      · rw [hd']
        exact descs_set hi hd _
      · refine List.Perm.trans ?_ hi.places
        refine List.Perm.trans (((hset d').append_left gs).trans ?_) List.perm_middle
        have hcons : d'.frees = .block b d.blockSize :: d.frees := by
          rw [Desc.frees, hd', List.map_cons]
          rfl
        rw [hcons]
        exact (hfrees.symm.cons _).append_left gs
      · rcases List.mem_cons.mp ht with rfl | ht
        · rw [Span.Headed, huse]
          refine ⟨d', List.getElem?_set_self (List.getElem?_eq_some_iff.mp hd).1, ?_⟩
          rw [hone]
          exact hheader
        · exact (hi.headed t (List.mem_cons_of_mem _ ht)).set hd (hfree t ht) fun _ => hother t ht
    refine ⟨⟨_, hi₁, fun t ht => ?_⟩, hkept⟩
    rcases List.mem_cons.mp ht with rfl | ht
    · intro k e huse' he
      obtain rfl : i = k := Use.arena.inj (huse.symm.trans huse')
      have he : (h.descs.set i d')[i]? = some e := he
      rw [List.getElem?_set_self (List.getElem?_eq_some_iff.mp hd).1] at he
      obtain rfl := Option.some.inj he
      omega
    · exact (hbusy t (List.mem_cons_of_mem _ ht)).set hd rfl (Nat.le_of_eq (hfree t ht))

/-- A block that is held, and the header before it. -/
theorem Inv.block_cases (hi : Inv h spans gs) (hs : s ∈ spans) {size : Nat}
    (hb : .block b size ∈ s.places) : blockToArena b h = .ok (s.addr, h) ∧
      ((∃ cnt, s.use = .big cnt ∧ arenaAt h.mem s.addr = ⟨arenaMagic, 0, cnt⟩ ∧
          b = s.addr + sizeofArena ∧ size = pgsize * cnt - sizeofArena) ∨
        ∃ i d, h.descs[i]? = some d ∧ size = d.blockSize ∧
          arenaAt h.mem s.addr = ⟨arenaMagic, i + 1, d.freeIn s.page⟩) := by
  have hpos := hi.pos hs
  have hheaded := hi.headed s hs
  obtain ⟨page, use⟩ := s
  cases use with
  | pages user cnt => cases List.mem_singleton.mp hb
  | big cnt =>
    obtain ⟨rfl, rfl⟩ := Grant.block.inj (List.mem_singleton.mp hb)
    exact ⟨blockToArena_big hpos hheaded, Or.inl ⟨cnt, rfl, hheaded, rfl, rfl⟩⟩
  | arena i =>
    obtain ⟨d, hd, harena⟩ := hheaded
    obtain ⟨-, hsize, -⟩ := hi.desc hd
    obtain ⟨j, hj, heq⟩ := List.mem_map.mp hb
    obtain ⟨rfl, rfl⟩ := Grant.block.inj heq
    exact ⟨blockToArena_small hpos (List.mem_range.mp hj) hd hsize harena,
      Or.inr ⟨i, d, hd, hsize.symm, harena⟩⟩

/-- `free` gives back what it is called with, and changes nothing else that is held. -/
theorem Sound.free {size : Nat} (hs : Sound h (.block b size :: gs)) :
    (free (some b)).wp (fun _ => False) (fun _ h' =>
      Sound h' gs ∧ Kept (fun x => ∀ g ∈ gs, ¬ g.Has x) h.mem h'.mem) h := by
  obtain ⟨spans, hi, hbusy⟩ := hs
  obtain ⟨s, rest, hb, hperm⟩ := hi.held
  replace hi := hi.perm_spans hperm
  replace hbusy : ∀ t ∈ s :: rest, Busy h t := fun t ht => hbusy t (hperm.mem_iff.mpr ht)
  obtain ⟨hrun, hcases⟩ := hi.block_cases List.mem_cons_self hb
  rw [Malloc.free, wp_bind, wp, hrun]
  refine (wp_bind _ _).mpr ((wp_gets _).mpr ?_)
  rcases hcases with ⟨cnt, huse, harena, hbs, hsize⟩ | ⟨i, d, hd, rfl, harena⟩
  · rw [harena, if_pos rfl]
    have hcnt : s.cnt = cnt := by rw [Span.cnt, huse]; rfl
    have hwp := hi.pages.freeMultiple
    rw [hcnt] at hwp
    refine wp_mono hwp (fun _ he => he) ?_
    rintro _ h₁ ⟨hp₁, hdescs₁, hk₁⟩
    have hi₁ : Inv h₁ rest gs := by
      refine ⟨hp₁, (congrArg _ hdescs₁).trans hi.descs, ?_, fun t ht => ?_⟩
      · rw [hdescs₁]
        have hplaces := hi.places
        rw [List.flatMap_cons, Span.places, huse, hbs, hsize] at hplaces
        exact List.Perm.cons_inv hplaces
      · refine (hi.headed t (List.mem_cons_of_mem _ ht)).congr
          (fun _ => Inv.header_new hi.pages ht (hcnt ▸ hk₁)) fun k e _ he => ?_
        exact ⟨e, (congrArg (·[k]?) hdescs₁).trans he, rfl⟩
    refine ⟨⟨rest, hi₁, fun t ht k e huse he => ?_⟩, hi₁.kept_new hi.pages (hcnt ▸ hk₁)⟩
    exact hbusy t (List.mem_cons_of_mem _ ht) k e huse (hdescs₁ ▸ he)
  · rw [harena, if_neg (Nat.succ_ne_zero i)]
    refine (wp_bind _ _).mpr ((wp_gets _).mpr ?_)
    simp only [Nat.add_sub_cancel, hd]
    exact hi.freeBlock hbusy hd hb

/-! ## `calloc` and `realloc` -/

/-- Writes to what is held. -/
theorem Sound.write (hs : Sound h gs) (hk : Kept (fun x => ∃ g ∈ gs, g.Has x) h.mem mem) :
    Sound (h.setMem mem) gs := by
  obtain ⟨spans, hi, hbusy⟩ := hs
  refine ⟨spans, ⟨hi.pages, hi.descs, hi.places, fun s hs => ?_⟩, hbusy⟩
  refine (hi.headed s hs).congr (fun hheaded => arenaAt_kept hk fun x hx => ?_) fun _ d _ hd =>
    ⟨d, hd, rfl⟩
  rintro ⟨g, hg, hgx⟩
  exact hi.pages.header_apart hs hheaded
    (hi.places.mem_iff.mp (List.mem_append_left _ hg)) hx hgx

theorem Sound.pairwise (hs : Sound h gs) : gs.Pairwise Grant.Apart := by
  obtain ⟨spans, hi, -⟩ := hs
  have hpw := (hi.places.pairwise_iff Grant.Apart.symm).mpr hi.pages.pairwise_places
  exact (List.pairwise_append.mp hpw).1

theorem Sound.perm (hs : Sound h gs) (hperm : gs.Perm gs') : Sound h gs' := by
  obtain ⟨spans, hi, hbusy⟩ := hs
  exact ⟨spans, hi.perm_grants hperm, hbusy⟩

theorem Sound.room_pos (hs : Sound h gs) (hg : g ∈ gs) : 0 < g.room := by
  obtain ⟨spans, hi, -⟩ := hs
  obtain ⟨s, hs, hgs⟩ := hi.mem_places (List.mem_append_left _ hg)
  have := (s.room_pos (hi.pages.within s hs).1 hgs).2
  omega

theorem Sound.blockSize {size : Nat} (hs : Sound h gs) (hb : .block b size ∈ gs) :
    blockSize b h = .ok (size, h) := by
  obtain ⟨spans, hi, -⟩ := hs
  obtain ⟨s, hs, hbs⟩ := hi.mem_places (List.mem_append_left _ hb)
  obtain ⟨hrun, hcases⟩ := hi.block_cases hs hbs
  rw [Malloc.blockSize]
  refine (run_bind hrun).trans ?_
  rw [run_gets]
  rcases hcases with ⟨cnt, huse, harena, rfl, rfl⟩ | ⟨i, d, hd, rfl, harena⟩
  · rw [harena, if_pos rfl]
    have hpos := hi.pos hs
    have hcnt : s.cnt = cnt := by rw [Span.cnt, huse]; rfl
    have htop : s.page + cnt ≤ 1048576 := by
      obtain ⟨-, -, hhi⟩ := hi.pages.within s hs
      have h1 := hi.pages.layout.top
      have h2 := hi.pages.layout.order
      rw [huse] at hhi
      have hhi : s.page + s.cnt ≤ (h.pool false).start + (h.pool false).usedMap.bitCnt := hhi
      omega
    have hpos' := (hi.pages.within s hs).1
    have hsize : sizeT (pgsize * cnt + 4294967296 - pgOfs (s.addr + sizeofArena))
        = pgsize * cnt - sizeofArena := by
      simp only [sizeT, pgOfs, Span.addr, pgsize, sizeofArena]
      omega
    show Except.ok (_, h) = _
    rw [hsize]
  · rw [harena, if_neg (Nat.succ_ne_zero i)]
    rw [run_gets]
    simp only [Nat.add_sub_cancel, hd]
    rfl

/-- The block for a request is as big as the request, unless `size + sizeof *a` is too big for a
`size_t`. -/
theorem le_roomFor (size : Nat) (hsize : size < 4294967296) (hpos : 0 < roomFor size) :
    size ≤ roomFor size ↔ size ≤ 4294967284 := by
  rw [roomFor] at hpos ⊢
  cases hfind : classes.find? (size ≤ ·.1) with
  | some c =>
    have hle : size ≤ c.1 := by simpa using List.find?_some hfind
    have hmax : c.1 ≤ 1024 :=
      (by decide : ∀ c ∈ classes, c.1 ≤ 1024) c (List.mem_of_find?_eq_some hfind)
    exact ⟨fun _ => by omega, fun _ => hle⟩
  | none =>
    rw [hfind] at hpos
    simp only [pageCntFor, divRoundUp, sizeT, pgsize, sizeofArena] at hpos ⊢
    omega

/-- With the size of the arena the last sizes wrap around to a page. -/
theorem roomFor_wraps {size : Nat} (hlo : 4294967284 < size) (hsize : size < 4294967296) :
    roomFor size = 4084 := by
  have hfind : classes.find? (size ≤ ·.1) = none := by
    refine List.find?_eq_none.mpr fun c hc => ?_
    have hmax : c.1 ≤ 1024 := (by decide : ∀ c ∈ classes, c.1 ≤ 1024) c hc
    simp only [decide_eq_true_iff]
    omega
  rw [roomFor, hfind]
  simp only [pageCntFor, divRoundUp, sizeT, pgsize, sizeofArena]
  omega

end

end Pintos.Malloc

import Pintos.Properties.Malloc

/-!
# What is held of the memory of the kernel

Calls of the functions of both allocators, in any order, by a kernel that gives back what it holds
and writes to nothing else.

* `grants_apart` — what is held never overlaps, and no call fails an assertion.
* `calls_keep` — a call changes the bytes of nothing that is held but its own.
* `all_given_back` — when nothing is held all pages are free.
* `malloc_room`, `calloc_room` — when a block is as big as it should be.
-/

namespace Pintos.Malloc

open Pintos.Lib Pintos.Logic Pintos.Logic.Exec Pintos.Logic.Ram

variable {h h' : Heap} {gs gs' : List Grant} {g : Grant} {mem : Ram} {b size : Nat}

/-! ## The functions between two calls -/

theorem Sound.getMultiple (hs : Sound h gs) (flags : PallocFlags) (pageCnt : Nat) :
    (pallocGetMultiple flags pageCnt).wp (fun e => e = .outOfPages ∧ flags.assert = true)
      (fun r h' => match r with
        | none => h' = h
        | some a => Sound h' (.pages flags.user a pageCnt :: gs) ∧
            Kept (fun x => ∀ g ∈ gs, ¬ g.Has x) h.mem h'.mem ∧
            (flags.zero = true → ∀ x, Grant.Has (.pages flags.user a pageCnt) x → h'.mem x = 0))
      h := by
  obtain ⟨spans, hi, hbusy⟩ := hs
  refine wp_mono (hi.pages.getMultiple flags (.pages flags.user pageCnt) rfl)
    (fun _ he => he) ?_
  intro r h₁ hr
  cases r with
  | none => exact hr
  | some a =>
    obtain ⟨page, rfl, hp, hdescs, hk, hzero⟩ := hr
    refine ⟨⟨_, ⟨hp, (congrArg _ hdescs).trans hi.descs, ?_, fun t ht => ?_⟩, fun t ht => ?_⟩,
      hi.kept_new hp hk, hzero⟩
    · rw [hdescs, List.flatMap_cons]
      exact hi.places.cons _
    · rcases List.mem_cons.mp ht with rfl | ht
      · trivial
      · exact (hi.headed t ht).congr (fun _ => Inv.header_new hp ht hk) fun k e _ he =>
          ⟨e, (congrArg (·[k]?) hdescs).trans he, rfl⟩
    · rcases List.mem_cons.mp ht with rfl | ht
      · intro k e huse
        cases huse
      · intro k e huse he
        exact hbusy t ht k e huse (hdescs ▸ he)

theorem Sound.freeMultiple {user : Bool} {a pageCnt : Nat}
    (hs : Sound h (.pages user a pageCnt :: gs)) :
    (pallocFreeMultiple a pageCnt).wp (fun _ => False) (fun _ h' =>
      Sound h' gs ∧ Kept (fun x => ∀ g ∈ gs, ¬ g.Has x) h.mem h'.mem) h := by
  obtain ⟨spans, hi, hbusy⟩ := hs
  obtain ⟨s, rest, hg, hperm⟩ := hi.held
  replace hi := hi.perm_spans hperm
  replace hbusy : ∀ t ∈ s :: rest, Busy h t := fun t ht => hbusy t (hperm.mem_iff.mpr ht)
  have huse : s.use = .pages user pageCnt ∧ a = s.addr := by
    obtain ⟨page, use⟩ := s
    cases use with
    | pages user cnt =>
      obtain ⟨rfl, rfl, rfl⟩ := Grant.pages.inj (List.mem_singleton.mp hg)
      exact ⟨rfl, rfl⟩
    | big cnt => cases List.mem_singleton.mp hg
    | arena i =>
      obtain ⟨j, -, hj⟩ := List.mem_map.mp hg
      cases hj
  obtain ⟨huse, rfl⟩ := huse
  have hcnt : s.cnt = pageCnt := by rw [Span.cnt, huse]; rfl
  have hwp := hi.pages.freeMultiple
  rw [hcnt] at hwp
  refine wp_mono hwp (fun _ he => he) ?_
  rintro _ h₁ ⟨hp₁, hdescs₁, hk₁⟩
  have hi₁ : Inv h₁ rest gs := by
    refine ⟨hp₁, (congrArg _ hdescs₁).trans hi.descs, ?_, fun t ht => ?_⟩
    · rw [hdescs₁]
      have hplaces := hi.places
      rw [List.flatMap_cons, Span.places, huse] at hplaces
      exact List.Perm.cons_inv hplaces
    · exact (hi.headed t (List.mem_cons_of_mem _ ht)).congr
        (fun _ => Inv.header_new hi.pages ht (hcnt ▸ hk₁)) fun k e _ he =>
          ⟨e, (congrArg (·[k]?) hdescs₁).trans he, rfl⟩
  refine ⟨⟨rest, hi₁, fun t ht k e huse he => ?_⟩, hi₁.kept_new hi.pages (hcnt ▸ hk₁)⟩
  exact hbusy t (List.mem_cons_of_mem _ ht) k e huse (hdescs₁ ▸ he)

/-- `calloc` clears the block. -/
theorem Sound.calloc (hs : Sound h gs) {a b : Nat} (hsize : sizeT (a * b) ≤ 4294967284) :
    (calloc a b).wp (fun _ => False) (fun r h' => match r with
      | none => h' = h
      | some p => Sound h' (.block p (roomFor (sizeT (a * b))) :: gs) ∧
          sizeT (a * b) ≤ roomFor (sizeT (a * b)) ∧
          Kept (fun x => ∀ g ∈ gs, ¬ g.Has x) h.mem h'.mem ∧
          ∀ x, Range p (sizeT (a * b)) x → h'.mem x = 0) h := by
  rw [Malloc.calloc, wp_ite]
  refine ⟨fun _ => rfl, fun _ => ?_⟩
  refine (wp_bind _ _).mpr (wp_mono (hs.malloc (sizeT (a * b))) (fun _ he => he) ?_)
  intro r h₁ hr
  cases r with
  | none => exact hr
  | some p =>
    obtain ⟨hs₁, hk₁⟩ := hr
    have hroom := (le_roomFor (sizeT (a * b)) (by omega)
      (hs₁.room_pos List.mem_cons_self)).mpr hsize
    have hfill := kept_fill h₁.mem p (sizeT (a * b)) 0
    have hblock : ∀ x, Range p (sizeT (a * b)) x →
        Grant.Has (.block p (roomFor (sizeT (a * b)))) x := fun x hx =>
      ⟨hx.1, by have := hx.2; simp only [Grant.addr, Grant.room]; omega⟩
    refine (wp_bind _ _).mpr ((wp_modify _).mpr ((wp_pure _).mpr ⟨hs₁.write (hfill.mono
      fun x hx => ⟨_, List.mem_cons_self, hblock x hx⟩), hroom, ?_, fun x hx => if_pos hx⟩))
    refine hk₁.trans (hfill.mono fun x hx g hg => ?_)
    exact (List.pairwise_cons.mp hs₁.pairwise).1 g hg x (hblock x hx)

/-- `realloc` moves a block, with what it holds. -/
theorem Sound.realloc (hs : Sound h (.block b size :: gs)) {newSize : Nat} (hpos : newSize ≠ 0)
    (hnew : newSize ≤ 4294967284) :
    (realloc (some b) newSize).wp (fun _ => False) (fun r h' => match r with
      | none => h' = h
      | some p => Sound h' (.block p (roomFor newSize) :: gs) ∧ newSize ≤ roomFor newSize ∧
          Kept (fun x => ∀ g ∈ gs, ¬ g.Has x) h.mem h'.mem ∧
          ∀ k < min newSize size, h'.mem (p + k) = h.mem (b + k)) h := by
  rw [Malloc.realloc, if_neg hpos, wp_bind]
  refine wp_mono (hs.malloc newSize) (fun _ he => he) ?_
  intro r h₁ hr
  cases r with
  | none => exact hr
  | some p =>
    obtain ⟨hs₁, hk₁⟩ := hr
    have hroom := (le_roomFor newSize (by omega)
      (hs₁.room_pos List.mem_cons_self)).mpr hnew
    have hcopy := kept_copy h₁.mem p b (min newSize size)
    have hblock : ∀ x, Range p (min newSize size) x → Grant.Has (.block p (roomFor newSize)) x :=
      fun x hx => ⟨hx.1, by have := hx.2; simp only [Grant.addr, Grant.room]; omega⟩
    have hapart := (List.pairwise_cons.mp hs₁.pairwise).1
    have hs₂ : Sound (h₁.setMem (h₁.mem.copy p b (min newSize size)))
        (.block b size :: .block p (roomFor newSize) :: gs) :=
      (hs₁.write (hcopy.mono fun x hx => ⟨_, List.mem_cons_self, hblock x hx⟩)).perm
        (List.Perm.swap _ _ _)
    rw [wp_bind, wp, hs₁.blockSize (List.mem_cons_of_mem _ List.mem_cons_self)]
    refine (wp_bind _ _).mpr ((wp_modify _).mpr ((wp_bind _ _).mpr
      (wp_mono hs₂.free (fun _ he => he) ?_)))
    rintro _ h₂ ⟨hs₃, hk₃⟩
    refine (wp_pure _).mpr ⟨hs₃, hroom, ?_, fun k hk => ?_⟩
    · refine (hk₁.mono fun x hx g hg => hx g (List.mem_cons_of_mem _ hg)).trans
        ((hcopy.mono fun x hx g hg => ?_).trans
          (hk₃.mono fun x hx g hg => hx g (List.mem_cons_of_mem _ hg)))
      exact hapart g (List.mem_cons_of_mem _ hg) x (hblock x hx)
    · have hin : Range p (min newSize size) (p + k) := ⟨by omega, by omega⟩
      have hold : Grant.Has (.block b size) (b + k) :=
        ⟨by simp only [Grant.addr]; omega, by simp only [Grant.addr, Grant.room]; omega⟩
      rw [hk₃ _ fun hx => hx _ List.mem_cons_self (hblock _ hin)]
      have hcopied : h₁.mem.copy p b (min newSize size) (p + k) = h₁.mem (b + (p + k - p)) :=
        if_pos hin
      refine hcopied.trans ?_
      rw [Nat.add_sub_cancel_left, hk₁ _ fun hx => hx _ List.mem_cons_self hold]

/-! ## The start -/

theorem initPool_some {base pageCnt : Nat} {pool : Pool} (h : initPool base pageCnt = some pool) :
    ∃ n ≤ pageCnt, pool = ⟨Bitmap.create (pageCnt - n), base + n * pgsize⟩ := by
  rw [initPool] at h
  by_cases hn : divRoundUp (bitmapBufSize pageCnt) pgsize > pageCnt
  · rw [if_pos hn] at h
    cases h
  · rw [if_neg hn] at h
    exact ⟨_, Nat.le_of_not_gt hn, (Option.some.inj h).symm⟩

theorem mallocInit_eq : mallocInit = some (classes.map fun c => ⟨c.1, c.2, []⟩) := rfl

/-- The pages of the two pools come one after the other. -/
theorem pallocInit_some {initRamPages userPageLimit : Nat} {kernelPool userPool : Pool}
    (hlo : 256 ≤ initRamPages)
    (h : pallocInit initRamPages userPageLimit = some (kernelPool, userPool)) :
    ∃ k u n m, n ≤ k ∧ m ≤ u ∧ k + u = initRamPages - 256 ∧
      kernelPool = ⟨Bitmap.create (k - n), pgsize * (786688 + n)⟩ ∧
      userPool = ⟨Bitmap.create (u - m), pgsize * (786688 + k + m)⟩ := by
  rw [pallocInit] at h
  obtain ⟨kp, hk, h⟩ := Option.bind_eq_some_iff.mp h
  obtain ⟨up, hu, h⟩ := Option.bind_eq_some_iff.mp h
  obtain ⟨rfl, rfl⟩ := Prod.mk.inj (Option.some.inj h)
  obtain ⟨n, hn, rfl⟩ := initPool_some hk
  obtain ⟨m, hm, rfl⟩ := initPool_some hu
  have hfree : (physBase + initRamPages * pgsize - (physBase + 1024 * 1024)) / pgsize
      = initRamPages - 256 := by
    simp only [physBase, pgsize]
    omega
  rw [hfree] at hn hm ⊢
  refine ⟨_, _, n, m, hn, hm, by omega, ?_, ?_⟩
  · congr 1
    simp only [physBase, pgsize]
    omega
  · congr 1
    simp only [physBase, pgsize]
    omega

/-- After the start nothing is held. -/
theorem boot_sound {initRamPages userPageLimit : Nat} (hlo : 256 ≤ initRamPages)
    (hhi : initRamPages ≤ 16384) (hb : boot initRamPages userPageLimit mem = some h) :
    Sound h [] := by
  rw [boot, mallocInit_eq] at hb
  obtain ⟨⟨kernelPool, userPool⟩, hpools, hb⟩ := Option.bind_eq_some_iff.mp hb
  obtain rfl := Option.some.inj hb
  obtain ⟨k, u, n, m, hn, hm, hku, rfl, rfl⟩ := pallocInit_some hlo hpools
  have hstart : ∀ cnt page, Pool.start ⟨Bitmap.create cnt, pgsize * page⟩ = page := fun _ page =>
    pgNo_mul page
  refine ⟨[], ⟨⟨⟨?_, ?_, ?_, ?_⟩, List.Pairwise.nil, fun s hs => absurd hs List.not_mem_nil, ?_⟩,
    rfl, List.Perm.refl _, fun s hs => absurd hs List.not_mem_nil⟩,
    fun s hs => absurd hs List.not_mem_nil⟩
  · intro user
    cases user
    · exact congrArg (pgsize * ·) (hstart _ _).symm
    · exact congrArg (pgsize * ·) (hstart _ _).symm
  · show 0 < Pool.start ⟨_, _⟩
    rw [hstart]
    omega
  · show Pool.start ⟨_, _⟩ + (k - n) ≤ Pool.start ⟨_, _⟩
    rw [hstart, hstart]
    omega
  · show Pool.start ⟨_, _⟩ + (u - m) ≤ _
    rw [hstart]
    omega
  · intro user page _
    refine ⟨fun ht => ?_, fun ⟨s, hs, _⟩ => absurd hs List.not_mem_nil⟩
    cases user <;> exact absurd ((Bitmap.test_create _ _).symm.trans ht) Bool.false_ne_true

/-! ## Runs -/

/-- A call of a function of the allocators, or a write to memory. -/
inductive Op where
  | getMultiple (flags : PallocFlags) (pageCnt : Nat)
  | freeMultiple (user : Bool) (pages pageCnt : Nat)
  | malloc (size : Nat)
  | calloc (a b : Nat)
  /-- `realloc` of a block of this size. -/
  | realloc (block size newSize : Nat)
  /-- `free` of a block of this size. -/
  | free (block size : Nat)
  /-- A byte of what is held is written. -/
  | write (g : Grant) (a : Nat) (value : UInt8)

namespace Op

/-- What the call is about, if that is held already. -/
def target : Op → Option Grant
  | .getMultiple _ _ | .malloc _ | .calloc _ _ => none
  | .freeMultiple user pages pageCnt => some (.pages user pages pageCnt)
  | .realloc block size _ | .free block size => some (.block block size)
  | .write g _ _ => some g

/-- What is given back is held, and so is what is written. The sizes for `calloc` and `realloc` are
such that the size of the arena can be added to them. -/
def Legal (gs : List Grant) (op : Op) : Prop :=
  (∀ g, op.target = some g → g ∈ gs) ∧
  match op with
  | .calloc a b => sizeT (a * b) ≤ 4294967284
  | .realloc _ _ newSize => newSize ≤ 4294967284
  | .write g a _ => g.Has a
  | _ => True

/-- What is held with the block at `p`. Its size is what `block_size` says. -/
def newBlock : Option Nat → Exec Heap Stop (Option Grant)
  | none => pure none
  | some p => do return some (.block p (← blockSize p))

/-- The call: what is new, and what of `gs` is still held. -/
def call (gs : List Grant) : Op → Exec Heap Stop (Option Grant × List Grant)
  | .getMultiple flags pageCnt => do
    let pages ← pallocGetMultiple flags pageCnt
    return (pages.map (.pages flags.user · pageCnt), gs)
  | .freeMultiple user pages pageCnt => do
    pallocFreeMultiple pages pageCnt
    return (none, gs.erase (.pages user pages pageCnt))
  | .malloc size => do
    let p ← Malloc.malloc size
    return (← newBlock p, gs)
  | .calloc a b => do
    let p ← Malloc.calloc a b
    return (← newBlock p, gs)
  | .realloc block size newSize => do
    let p ← Malloc.realloc (some block) newSize
    return (← newBlock p, if newSize = 0 ∨ p ≠ none then gs.erase (.block block size) else gs)
  | .free block size => do
    Malloc.free (some block)
    return (none, gs.erase (.block block size))
  | .write _ a value => do
    modify fun h => h.setMem (h.mem.put a value)
    return (none, gs)

/-- Whether the call may end in the panic that the caller asks for. -/
def asksPanic : Op → Bool
  | .getMultiple flags _ => flags.assert
  | _ => false

/-- Whether the call is a write to `g`. -/
def writes (g : Grant) : Op → Bool
  | .write g' _ _ => g' = g
  | _ => false

/-- What is in memory after a call. -/
def Fills (op : Op) (new : Option Grant) (mem mem' : Ram) : Prop :=
  match op with
  | .getMultiple flags _ => flags.zero = true → ∀ g ∈ new, ∀ x, g.Has x → mem' x = 0
  | .calloc a b => ∀ g ∈ new, sizeT (a * b) ≤ g.room ∧
      ∀ k < sizeT (a * b), mem' (g.addr + k) = 0
  | .realloc block size newSize => ∀ g ∈ new, newSize ≤ g.room ∧
      ∀ k < min newSize size, mem' (g.addr + k) = mem (block + k)
  | .write _ a value => mem' a = value ∧ ∀ x ≠ a, mem' x = mem x
  | _ => True

end Op

/-- What a call does to what is held, and to its bytes. -/
structure Calls (op : Op) (h : Heap) (r : Option Grant × List Grant) (h' : Heap) : Prop where
  sound : Sound h' (r.1.toList ++ r.2)
  keeps : ∀ g ∈ r.2, op.writes g = false → ∀ x, g.Has x → h'.mem x = h.mem x
  fills : op.Fills r.1 h.mem h'.mem

theorem keeps_of_kept (hk : Kept (fun x => ∀ g ∈ gs, ¬ g.Has x) h.mem mem) :
    ∀ g ∈ gs, ∀ x, g.Has x → mem x = h.mem x := fun g hg x hx =>
  hk x fun hnot => hnot g hg hx

theorem Sound.newBlock {p : Nat} (hs : Sound h gs) (hb : .block p size ∈ gs) :
    Op.newBlock (some p) h = .ok (some (.block p size), h) :=
  (run_bind (hs.blockSize hb)).trans rfl

/-- A legal call returns, but for the panic that the caller asks for. -/
theorem Sound.call (hs : Sound h gs) {op : Op} (hl : op.Legal gs) :
    (op.call gs).wp (fun e => e = .outOfPages ∧ op.asksPanic = true)
      (fun r h' => Calls op h r h') h := by
  obtain ⟨hheld, hl⟩ := hl
  have herase : ∀ g, op.target = some g → Sound h (g :: gs.erase g) := fun g hg =>
    hs.perm (List.perm_cons_erase (hheld g hg))
  cases op with
  | getMultiple flags pageCnt =>
    refine (wp_bind _ _).mpr (wp_mono (hs.getMultiple flags pageCnt) (fun _ he => he) ?_)
    intro r h₁ hr
    cases r with
    | none => exact ⟨hr ▸ hs, fun _ _ _ _ _ => hr ▸ rfl, fun _ g hg => by cases hg⟩
    | some a =>
      obtain ⟨hs₁, hk₁, hzero⟩ := hr
      refine ⟨hs₁, fun g hg _ => keeps_of_kept hk₁ g hg, fun hz g hg => ?_⟩
      obtain rfl := Option.some.inj hg
      exact hzero hz
  | freeMultiple user pages pageCnt =>
    refine (wp_bind _ _).mpr (wp_mono (herase _ rfl).freeMultiple (fun _ he => he.elim) ?_)
    rintro _ h₁ ⟨hs₁, hk₁⟩
    exact ⟨hs₁, fun g hg _ => keeps_of_kept hk₁ g hg, trivial⟩
  | malloc size =>
    refine (wp_bind _ _).mpr (wp_mono (hs.malloc size) (fun _ he => he.elim) ?_)
    intro r h₁ hr
    cases r with
    | none => exact ⟨hr ▸ hs, fun _ _ _ _ _ => hr ▸ rfl, trivial⟩
    | some p =>
      obtain ⟨hs₁, hk₁⟩ := hr
      rw [wp_bind, wp, hs₁.newBlock List.mem_cons_self]
      exact ⟨hs₁, fun g hg _ => keeps_of_kept hk₁ g hg, trivial⟩
  | calloc a b =>
    refine (wp_bind _ _).mpr (wp_mono (hs.calloc hl) (fun _ he => he.elim) ?_)
    intro r h₁ hr
    cases r with
    | none => exact ⟨hr ▸ hs, fun _ _ _ _ _ => hr ▸ rfl, fun g hg => by cases hg⟩
    | some p =>
      obtain ⟨hs₁, hroom, hk₁, hzero⟩ := hr
      rw [wp_bind, wp, hs₁.newBlock List.mem_cons_self]
      refine ⟨hs₁, fun g hg _ => keeps_of_kept hk₁ g hg, fun g hg => ?_⟩
      obtain rfl := Option.some.inj hg
      exact ⟨hroom, fun k hk => hzero _ ⟨Nat.le_add_right _ _, Nat.add_lt_add_left hk _⟩⟩
  | realloc block size newSize =>
    by_cases hzero : newSize = 0
    · -- `realloc` to nothing is `free`
      subst hzero
      refine (wp_bind _ _).mpr ?_
      rw [Malloc.realloc, if_pos rfl]
      refine (wp_bind _ _).mpr (wp_mono (herase _ rfl).free (fun _ he => he.elim) ?_)
      rintro _ h₁ ⟨hs₁, hk₁⟩
      refine (wp_pure _).mpr ((wp_bind _ _).mpr ((wp_pure _).mpr ((wp_pure _).mpr ?_)))
      rw [if_pos (Or.inl rfl)]
      exact ⟨hs₁, fun g hg _ => keeps_of_kept hk₁ g hg, fun g hg => by cases hg⟩
    · refine (wp_bind _ _).mpr (wp_mono ((herase _ rfl).realloc hzero hl) (fun _ he => he.elim) ?_)
      intro r h₁ hr
      cases r with
      | none =>
        refine (wp_bind _ _).mpr ((wp_pure _).mpr ((wp_pure _).mpr ?_))
        rw [if_neg (by simp [hzero])]
        exact ⟨hr ▸ hs, fun _ _ _ _ _ => hr ▸ rfl, fun g hg => by cases hg⟩
      | some p =>
        obtain ⟨hs₁, hroom, hk₁, hcopy⟩ := hr
        rw [wp_bind, wp, hs₁.newBlock List.mem_cons_self]
        refine (wp_pure _).mpr ?_
        rw [if_pos (Or.inr (Option.some_ne_none p))]
        refine ⟨hs₁, fun g hg _ => keeps_of_kept hk₁ g hg, fun g hg => ?_⟩
        obtain rfl := Option.some.inj hg
        exact ⟨hroom, hcopy⟩
  | free block size =>
    refine (wp_bind _ _).mpr (wp_mono (herase _ rfl).free (fun _ he => he.elim) ?_)
    rintro _ h₁ ⟨hs₁, hk₁⟩
    exact ⟨hs₁, fun g hg _ => keeps_of_kept hk₁ g hg, trivial⟩
  | write g a value =>
    refine (wp_bind _ _).mpr ((wp_modify _).mpr ((wp_pure _).mpr ?_))
    have hg := hheld g rfl
    have hput := kept_put h.mem a value
    refine ⟨hs.write (hput.mono fun x hx => ⟨g, hg, ?_⟩), fun g' hg' hne x hx => ?_, ?_⟩
    · obtain ⟨h1, h2⟩ := hx
      obtain rfl : x = a := by omega
      exact hl
    · have hne : g ≠ g' := of_decide_eq_false hne
      refine if_neg fun hxa : x = a => ?_
      exact absurd hx (hxa ▸ (hs.pairwise.forall hg hg' hne) a hl)
    · exact ⟨if_pos rfl, fun x hx => if_neg hx⟩

/-- The states between two calls, with what is held. -/
inductive Reachable : Heap → List Grant → Prop
  /-- The start, with at most 64 MB of memory. -/
  | boot {initRamPages userPageLimit : Nat} {mem : Ram} {h : Heap} : 256 ≤ initRamPages →
      initRamPages ≤ 16384 → boot initRamPages userPageLimit mem = some h → Reachable h []
  | step {h h' : Heap} {gs rest : List Grant} {new : Option Grant} (op : Op) : Reachable h gs →
      op.Legal gs → op.call gs h = .ok ((new, rest), h') → Reachable h' (new.toList ++ rest)

theorem Reachable.sound (hr : Reachable h gs) : Sound h gs := by
  induction hr with
  | boot hlo hhi hb => exact boot_sound hlo hhi hb
  | step _ _ hl hrun ih => exact (wp_ok (ih.call hl) hrun).sound

/-- A run with a block and two pages. -/
theorem reachable_two : ∃ h, Reachable h
    [.pages true 3222368256 2, .block 3222278156 1024] := by
  have hrun : ((boot 300 1000 fun _ => 0).bind fun h₀ =>
      (Op.call [] (.malloc 600) h₀).toOption.bind fun r₁ =>
      (Op.call [.block 3222278156 1024] (.getMultiple ⟨false, true, true⟩ 2) r₁.2).toOption.map
        fun r₂ => (r₁.1, r₂.1))
      = some ((some (.block 3222278156 1024), []),
          (some (.pages true 3222368256 2), [.block 3222278156 1024])) := by decide +kernel
  obtain ⟨h₀, hb, hrun⟩ := Option.bind_eq_some_iff.mp hrun
  obtain ⟨⟨r₁, h₁⟩, hr₁, hrun⟩ := Option.bind_eq_some_iff.mp hrun
  obtain ⟨⟨r₂, h₂⟩, hr₂, heq⟩ := Option.map_eq_some_iff.mp hrun
  obtain ⟨rfl, rfl⟩ := Prod.mk.inj heq
  have hstart := Reachable.boot (by decide) (by decide) hb
  have hfirst := Reachable.step (.malloc 600) hstart ⟨by rintro _ ⟨⟩, trivial⟩ (toOption_some hr₁)
  exact ⟨h₂, Reachable.step (.getMultiple ⟨false, true, true⟩ 2) hfirst ⟨by rintro _ ⟨⟩, trivial⟩
    (toOption_some hr₂)⟩

/-- What is held is in the pages of a pool. -/
def Grant.Within (h : Heap) (g : Grant) : Prop :=
  ∃ user, (∀ a size, g = .block a size → user = false) ∧
    ∀ x, g.Has x → (h.pool user).Has (pgNo x) ∧
      (h.pool user).usedMap.test (pgNo x - (h.pool user).start) = true

theorem Sound.within (hs : Sound h gs) (hg : g ∈ gs) : g.Within h := by
  obtain ⟨spans, hi, -⟩ := hs
  obtain ⟨s, hs, hgs⟩ := hi.mem_places (List.mem_append_left _ hg)
  refine ⟨s.use.user, ?_, fun x hx => ?_⟩
  · rintro a size rfl
    obtain ⟨page, use⟩ := s
    cases use with
    | pages user cnt => cases List.mem_singleton.mp hgs
    | big cnt => rfl
    | arena i => rfl
  · have hhas := (s.has_place (hi.pages.within s hs).1 hgs hx).1
    have hpool := hi.pages.has hs hhas
    exact ⟨hpool, (hi.pages.used _ _ hpool).mpr ⟨s, hs, hhas⟩⟩

/--
In every run what is held is in pages that are in use, and never overlaps. A legal call returns, or
ends in the panic that the caller asks for: no assertion fails.
-/
theorem grants_apart (hr : Reachable h gs) :
    gs.Pairwise Grant.Apart ∧ (∀ g ∈ gs, g.Within h) ∧
    ∀ op : Op, op.Legal gs → match op.call gs h with
      | .ok _ => True
      | .error e => e = .outOfPages ∧ op.asksPanic = true := by
  refine ⟨hr.sound.pairwise, fun g hg => hr.sound.within hg, fun op hl => ?_⟩
  have hwp := hr.sound.call hl
  cases hrun : op.call gs h with
  | ok r => trivial
  | error e => exact wp_error (E := fun e => e = .outOfPages ∧ op.asksPanic = true) hwp hrun

theorem grants_apart_two : ∃ h : Heap,
    [Grant.pages true 3222368256 2, .block 3222278156 1024].Pairwise Grant.Apart ∧
    Grant.Within h (.block 3222278156 1024) := by
  obtain ⟨h, hr⟩ := reachable_two
  obtain ⟨hap, hwithin, -⟩ := grants_apart hr
  exact ⟨h, hap, hwithin _ (List.mem_cons_of_mem _ List.mem_cons_self)⟩

/-- A call changes the bytes of nothing that is held but what it is about, and gives memory the
contents that it should. -/
theorem calls_keep (hr : Reachable h gs) {op : Op} (hl : op.Legal gs) {new : Option Grant}
    {rest : List Grant} (hrun : op.call gs h = .ok ((new, rest), h')) :
    (∀ g ∈ rest, op.writes g = false → ∀ x, g.Has x → h'.mem x = h.mem x) ∧
    op.Fills new h.mem h'.mem := by
  have hcalls := wp_ok (hr.sound.call hl) hrun
  exact ⟨hcalls.keeps, hcalls.fills⟩

theorem calls_keep_write : ∃ h : Heap, ∃ h' : Heap, h'.mem 3222278200 = 7 ∧
    ∀ x, Grant.Has (.pages true 3222368256 2) x → h'.mem x = h.mem x := by
  obtain ⟨h, hr⟩ := reachable_two
  have hl : (Op.write (.block 3222278156 1024) 3222278200 7).Legal
      [.pages true 3222368256 2, .block 3222278156 1024] := by
    refine ⟨fun g hg => ?_, by decide, by decide⟩
    obtain rfl := Option.some.inj hg
    exact List.mem_cons_of_mem _ List.mem_cons_self
  obtain ⟨hkeep, hvalue, -⟩ := calls_keep hr hl rfl
  exact ⟨h, _, hvalue, hkeep _ List.mem_cons_self (by decide)⟩

/-- When nothing is held all pages are free, and there are no arenas. -/
theorem all_given_back (hr : Reachable h []) :
    (∀ user idx, idx < (h.pool user).usedMap.bitCnt → (h.pool user).usedMap.test idx = false) ∧
    ∀ d ∈ h.descs, d.freeList = [] := by
  obtain ⟨spans, hi, hbusy⟩ := hr.sound
  have hfrees : (frees h.descs).Perm (spans.flatMap Span.places) := hi.places
  -- each place of a group is a free block
  have hdesc : ∀ s ∈ spans, ∀ g ∈ s.places, ∃ i, ∃ d : Desc, ∃ b, h.descs[i]? = some d ∧
      b ∈ d.freeList ∧ g = .block b d.blockSize := fun s hs g hg => by
    obtain ⟨d, hd, hgd⟩ := List.mem_flatMap.mp
      (hfrees.mem_iff.mpr (List.mem_flatMap.mpr ⟨s, hs, hg⟩))
    obtain ⟨b, hb, rfl⟩ := List.mem_map.mp hgd
    obtain ⟨i, hlt, rfl⟩ := List.mem_iff_getElem.mp hd
    exact ⟨i, _, b, List.getElem?_eq_getElem hlt, hb, rfl⟩
  have hnone : ∀ s, s ∉ spans := fun s hs => by
    cases huse : s.use with
    | pages user cnt =>
      obtain ⟨i, d, b, -, -, heq⟩ := hdesc s hs (.pages user s.addr cnt)
        (by rw [Span.places, huse]; exact List.mem_cons_self)
      cases heq
    | big cnt =>
      have hmem : Grant.block (s.addr + sizeofArena) (pgsize * cnt - sizeofArena) ∈ s.places := by
        rw [Span.places, huse]
        exact List.mem_cons_self
      obtain ⟨i, d, b, hd, -, heq⟩ := hdesc s hs _ hmem
      have := (hi.arena_of_size hd hs (heq ▸ hmem)).1
      rw [huse] at this
      cases this
    | arena i =>
      obtain ⟨d, hd, -⟩ : ∃ d, h.descs[i]? = some d ∧ _ := by
        have := hi.headed s hs
        rwa [Span.Headed, huse] at this
      obtain ⟨-, hsize, -⟩ := hi.desc hd
      have hall : blocks i s.addr ⊆ d.freeList.filter (pgNo · = s.page) := fun b hb => by
        obtain ⟨j, hj, rfl⟩ := List.mem_map.mp hb
        have hmem : blockAt i s.addr j ∈ s.places := by
          rw [Span.places, huse]
          exact List.mem_map.mpr ⟨j, hj, rfl⟩
        obtain ⟨k, e, b, he, hb, heq⟩ := hdesc s hs _ hmem
        obtain ⟨huse', -⟩ := hi.arena_of_size he hs (heq ▸ hmem)
        obtain rfl := Use.arena.inj (huse.symm.trans huse')
        obtain rfl := Option.some.inj (hd.symm.trans he)
        obtain ⟨rfl, -⟩ := Grant.block.inj heq
        exact List.mem_filter.mpr ⟨hb, decide_eq_true (pgNo_blockAddr _ (List.mem_range.mp hj))⟩
      have hlen := ((nodup_blocks i s.addr).subperm hall).length_le
      have hlt := hbusy s hs i d huse hd
      rw [length_blocks, ← List.countP_eq_length_filter] at hlen
      exact absurd hlt (Nat.not_lt.mpr hlen)
  refine ⟨fun user idx hidx => ?_, fun d hd => ?_⟩
  · have hused := hi.pages.used user ((h.pool user).start + idx) ⟨Nat.le_add_right _ _, by omega⟩
    rw [Nat.add_sub_cancel_left] at hused
    cases ht : (h.pool user).usedMap.test idx with
    | false => rfl
    | true =>
      obtain ⟨s, hs, -⟩ := hused.mp ht
      exact absurd hs (hnone s)
  · refine List.eq_nil_iff_forall_not_mem.mpr fun b hb => ?_
    obtain ⟨s, hs, -⟩ := List.mem_flatMap.mp (hfrees.mem_iff.mp
      (List.mem_flatMap.mpr ⟨d, hd, List.mem_map.mpr ⟨b, hb, rfl⟩⟩))
    exact hnone s hs

/-- A block is got and given back. -/
theorem all_given_back_one : ∃ h : Heap, ∀ d ∈ h.descs, d.freeList = [] := by
  have hrun : ((boot 300 1000 fun _ => 0).bind fun h₀ =>
      (Op.call [] (.malloc 600) h₀).toOption.bind fun r₁ =>
      (Op.call [.block 3222278156 1024] (.free 3222278156 1024) r₁.2).toOption.map
        fun r₂ => (r₁.1, r₂.1))
      = some ((some (.block 3222278156 1024), []), (none, [])) := by decide +kernel
  obtain ⟨h₀, hb, hrun⟩ := Option.bind_eq_some_iff.mp hrun
  obtain ⟨⟨r₁, h₁⟩, hr₁, hrun⟩ := Option.bind_eq_some_iff.mp hrun
  obtain ⟨⟨r₂, h₂⟩, hr₂, heq⟩ := Option.map_eq_some_iff.mp hrun
  obtain ⟨rfl, rfl⟩ := Prod.mk.inj heq
  have hstart := Reachable.boot (by decide) (by decide) hb
  have hfirst := Reachable.step (.malloc 600) hstart ⟨by rintro _ ⟨⟩, trivial⟩ (toOption_some hr₁)
  have hlast := Reachable.step (.free 3222278156 1024) hfirst ⟨fun g hg => by
    obtain rfl := Option.some.inj hg
    exact List.mem_cons_self, trivial⟩ (toOption_some hr₂)
  exact ⟨h₂, (all_given_back hlast).2⟩

/-- A block is as big as the request, unless the size of the arena cannot be added to it: then it
has one page. -/
theorem malloc_room (hr : Reachable h gs) {size p : Nat} (hsize : size < 4294967296)
    (hrun : malloc size h = .ok (some p, h')) :
    ∃ room, blockSize p h' = .ok (room, h') ∧ (size ≤ room ↔ size ≤ 4294967284) ∧
      (4294967284 < size → room = pgsize - sizeofArena) := by
  have hs := (wp_ok (Q := fun r h' => Mallocs h gs size r h') (hr.sound.malloc size) hrun).1
  exact ⟨_, hs.blockSize List.mem_cons_self,
    le_roomFor size hsize (hs.room_pos List.mem_cons_self), fun hlo => roomFor_wraps hlo hsize⟩

/-- A request for almost all of the address space gets a block of one page. -/
theorem malloc_room_wraps : ∃ h : Heap, ∃ room, blockSize 3222278156 h = .ok (room, h) ∧
    (4294967295 ≤ room ↔ 4294967295 ≤ 4294967284) ∧
    (4294967284 < 4294967295 → room = pgsize - sizeofArena) := by
  have hrun : ((boot 300 1000 fun _ => 0).bind fun h₀ =>
      (malloc 4294967295 h₀).toOption.map (·.1)) = some (some 3222278156) := by decide +kernel
  obtain ⟨h₀, hb, hrun⟩ := Option.bind_eq_some_iff.mp hrun
  obtain ⟨⟨r₁, h₁⟩, hr₁, rfl⟩ := Option.map_eq_some_iff.mp hrun
  exact ⟨h₁, malloc_room (Reachable.boot (by decide) (by decide) hb) (by decide)
    (toOption_some hr₁)⟩

theorem roomFor_lt (size : Nat) : roomFor size < 4294967296 := by
  rw [roomFor]
  cases hfind : classes.find? (size ≤ ·.1) with
  | some c =>
    have hmax : c.1 ≤ 1024 :=
      (by decide : ∀ c ∈ classes, c.1 ≤ 1024) c (List.mem_of_find?_eq_some hfind)
    exact Nat.lt_of_le_of_lt hmax (by decide)
  | none =>
    simp only [pageCntFor, divRoundUp, sizeT, pgsize, sizeofArena]
    omega

/-- A block for `a` elements of `b` bytes has room for them only if their size is the product that
`calloc` has computed: its test finds some overflows only. -/
theorem calloc_room (hr : Reachable h gs) {a b p : Nat} (hsize : sizeT (a * b) ≤ 4294967284)
    (hrun : calloc a b h = .ok (some p, h')) :
    ∃ room, blockSize p h' = .ok (room, h') ∧ (a * b ≤ room ↔ a * b < 4294967296) := by
  obtain ⟨hs, hroom, -⟩ := wp_ok (Q := fun r h' => match r with
    | none => h' = h
    | some p => Sound h' (.block p (roomFor (sizeT (a * b))) :: gs) ∧
        sizeT (a * b) ≤ roomFor (sizeT (a * b)) ∧
        Kept (fun x => ∀ g ∈ gs, ¬ g.Has x) h.mem h'.mem ∧
        ∀ x, Range p (sizeT (a * b)) x → h'.mem x = 0) (hr.sound.calloc hsize) hrun
  refine ⟨_, hs.blockSize List.mem_cons_self, fun hle => ?_, fun hlt => ?_⟩
  · exact Nat.lt_of_le_of_lt hle (roomFor_lt _)
  · exact Nat.le_trans (Nat.le_of_eq (Nat.mod_eq_of_lt hlt).symm) hroom

/-- An overflow that `calloc` does not find. -/
theorem calloc_room_wraps : ∃ h : Heap, ∃ p room, blockSize p h = .ok (room, h) ∧
    (65537 * 65537 ≤ room ↔ 65537 * 65537 < 4294967296) := by
  have hrun : ((boot 400 1000 fun _ => 0).bind fun h₀ =>
      (calloc 65537 65537 h₀).toOption.map (·.1)) = some (some 3222278156) := by decide +kernel
  obtain ⟨h₀, hb, hrun⟩ := Option.bind_eq_some_iff.mp hrun
  obtain ⟨⟨r₁, h₁⟩, hr₁, rfl⟩ := Option.map_eq_some_iff.mp hrun
  exact ⟨h₁, 3222278156, calloc_room (Reachable.boot (by decide) (by decide) hb) (by decide)
    (toOption_some hr₁)⟩

end Pintos.Malloc

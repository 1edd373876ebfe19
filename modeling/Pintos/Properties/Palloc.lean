import Mathlib.Data.List.Pairwise
import Mathlib.Data.List.Perm.Basic
import Pintos.Threads.Malloc

/-!
# Pages in use

The pages that are in use are in groups (`Span`), each of which has one use: it has been handed out,
it is the block of a big request, or it is an arena.

* `Pages` — the groups are apart, and the bitmaps of the pools have their pages.
* `Pages.getMultiple` — a new group is apart from the others.
* `Pages.freeMultiple` — the pages of a group are given back, and no assertion fails.
-/

namespace Pintos.Malloc

open Pintos.Lib Pintos.Logic Pintos.Logic.Exec Pintos.Logic.Ram

/-! ## Groups of pages -/

/-- What a group of pages is for. -/
inductive Use where
  /-- It has been handed out by `palloc_get_multiple`. -/
  | pages (user : Bool) (cnt : Nat)
  /-- It is the arena of a big block. -/
  | big (cnt : Nat)
  /-- It is an arena of the descriptor with this number. -/
  | arena (i : Nat)
  deriving DecidableEq

/-- The number of pages. -/
def Use.cnt : Use → Nat
  | .pages _ cnt => cnt
  | .big cnt => cnt
  | .arena _ => 1

/-- Whether the pages are from the user pool. -/
def Use.user : Use → Bool
  | .pages user _ => user
  | _ => false

/-- A group of pages in use, from the page with the number `page` on. -/
structure Span where
  page : Nat
  use : Use
  deriving DecidableEq

namespace Span

def addr (s : Span) : Nat := pgsize * s.page

def cnt (s : Span) : Nat := s.use.cnt

/-- The pages of the group. -/
def Has (s : Span) (page : Nat) : Prop := s.page ≤ page ∧ page < s.page + s.cnt

def Apart (s t : Span) : Prop := s.page + s.cnt ≤ t.page ∨ t.page + t.cnt ≤ s.page

theorem Apart.symm {s t : Span} (h : s.Apart t) : t.Apart s := Or.symm h

instance : Std.Symm Apart := ⟨fun _ _ => Apart.symm⟩

end Span

/-- Where a pool starts, as the number of a page. -/
def Pool.start (pool : Pool) : Nat := pgNo pool.base

/-- The pages of a pool. -/
def Pool.Has (pool : Pool) (page : Nat) : Prop :=
  pool.start ≤ page ∧ page < pool.start + pool.usedMap.bitCnt

/-- Where the two pools are. -/
structure Layout (pool : Bool → Pool) : Prop where
  aligned : ∀ user, (pool user).base = pgsize * (pool user).start
  pos : 0 < (pool false).start
  order : (pool false).start + (pool false).usedMap.bitCnt ≤ (pool true).start
  top : (pool true).start + (pool true).usedMap.bitCnt ≤ 1048576

/-- The bitmaps have the bits of the groups, and the groups are apart. -/
structure Pages (pool : Bool → Pool) (spans : List Span) : Prop where
  layout : Layout pool
  apart : spans.Pairwise Span.Apart
  within : ∀ s ∈ spans, 0 < s.cnt ∧ (pool s.use.user).start ≤ s.page ∧
    s.page + s.cnt ≤ (pool s.use.user).start + (pool s.use.user).usedMap.bitCnt
  used : ∀ user page, (pool user).Has page →
    ((pool user).usedMap.test (page - (pool user).start) = true ↔ ∃ s ∈ spans, s.Has page)

theorem Pages.pos {pool : Bool → Pool} {spans : List Span} {s : Span} (hp : Pages pool spans)
    (hs : s ∈ spans) : 0 < s.page := by
  obtain ⟨-, hlo, -⟩ := hp.within s hs
  have hpos := hp.layout.pos
  have horder := hp.layout.order
  cases hu : s.use.user <;> rw [hu] at hlo <;> omega

/-! ## The functions of `palloc.c` -/

section

variable {h h' : Heap} {pool : Bool → Pool} {spans spans' : List Span} {s : Span} {user : Bool}

@[simp] theorem pool_setMem (h : Heap) (mem : Ram) : (h.setMem mem).pool = h.pool := rfl

theorem pool_setPool (h : Heap) (user : Bool) (pool : Pool) (u : Bool) :
    (h.setPool user pool).pool u = if u = user then pool else h.pool u := by
  cases user <;> cases u <;> rfl

@[simp] theorem descs_setPool (h : Heap) (user : Bool) (pool : Pool) :
    (h.setPool user pool).descs = h.descs := by
  cases user <;> rfl

@[simp] theorem mem_setPool (h : Heap) (user : Bool) (pool : Pool) :
    (h.setPool user pool).mem = h.mem := by
  cases user <;> rfl

theorem Pages.perm (hp : Pages pool spans) (hperm : spans.Perm spans') : Pages pool spans' where
  layout := hp.layout
  apart := (hperm.pairwise_iff Span.Apart.symm).mp hp.apart
  within s hs := hp.within s (hperm.mem_iff.mpr hs)
  used user page hpage := (hp.used user page hpage).trans
    (exists_congr fun _ => and_congr_left' hperm.mem_iff)

/-- A page is of one pool only. -/
theorem Layout.user_unique (hl : Layout pool) {u v : Bool} {page : Nat} (hu : (pool u).Has page)
    (hv : (pool v).Has page) : u = v := by
  have := hl.order
  obtain ⟨h1, h2⟩ := hu
  obtain ⟨h3, h4⟩ := hv
  cases u <;> cases v
  · rfl
  · omega
  · omega
  · rfl

theorem Pages.has (hp : Pages pool spans) (hs : s ∈ spans) {page : Nat} (hpage : s.Has page) :
    (pool s.use.user).Has page := by
  obtain ⟨-, h1, h2⟩ := hp.within s hs
  exact ⟨by have := hpage.1; omega, by have := hpage.2; omega⟩

/-- A change of the bits of one pool. -/
theorem Pages.setPool (hp : Pages h.pool spans) {usedMap : Bitmap}
    (hcnt : usedMap.bitCnt = (h.pool user).usedMap.bitCnt) (happart : spans'.Pairwise Span.Apart)
    (hwithin : ∀ s ∈ spans', 0 < s.cnt ∧ (h.pool s.use.user).start ≤ s.page ∧
      s.page + s.cnt ≤ (h.pool s.use.user).start + (h.pool s.use.user).usedMap.bitCnt)
    (hother : ∀ u ≠ user, ∀ page, (h.pool u).Has page →
      ((∃ s ∈ spans', s.Has page) ↔ ∃ s ∈ spans, s.Has page))
    (hused : ∀ page, (h.pool user).Has page →
      (usedMap.test (page - (h.pool user).start) = true ↔ ∃ s ∈ spans', s.Has page)) :
    Pages (h.setPool user { h.pool user with usedMap }).pool spans' := by
  have hpool : ∀ u, ((h.setPool user { h.pool user with usedMap }).pool u).base = (h.pool u).base ∧
      ((h.setPool user { h.pool user with usedMap }).pool u).usedMap.bitCnt
        = (h.pool u).usedMap.bitCnt := by
    intro u
    rw [pool_setPool]
    by_cases hu : u = user
    · rw [if_pos hu, hu]
      exact ⟨rfl, hcnt⟩
    · rw [if_neg hu]
      exact ⟨rfl, rfl⟩
  have hstart : ∀ u, ((h.setPool user { h.pool user with usedMap }).pool u).start
      = (h.pool u).start := fun u => congrArg pgNo (hpool u).1
  refine ⟨⟨fun u => ?_, ?_, ?_, ?_⟩, happart, fun s hs => ?_, fun u page hpage => ?_⟩
  · rw [(hpool u).1, hstart, ← hp.layout.aligned]
  · rw [hstart]
    exact hp.layout.pos
  · rw [hstart, hstart, (hpool false).2]
    exact hp.layout.order
  · rw [hstart, (hpool true).2]
    exact hp.layout.top
  · rw [hstart, (hpool _).2]
    exact hwithin s hs
  · rw [Pool.Has, hstart, (hpool u).2] at hpage
    rw [hstart]
    by_cases hu : u = user
    · subst hu
      rw [pool_setPool, if_pos rfl]
      exact hused page hpage
    · rw [pool_setPool, if_neg hu, hother u hu page hpage]
      exact hp.used u page hpage

/-- What `palloc_get_multiple` returns is a group of pages of its own. -/
theorem Pages.getMultiple (hp : Pages h.pool spans) (flags : PallocFlags) (use : Use)
    (huser : use.user = flags.user) :
    (pallocGetMultiple flags use.cnt).wp (fun e => e = .outOfPages ∧ flags.assert = true)
      (fun r h' => match r with
        | none => h' = h
        | some a => ∃ page, a = pgsize * page ∧ Pages h'.pool (⟨page, use⟩ :: spans) ∧
            h'.descs = h.descs ∧ Kept (Range a (pgsize * use.cnt)) h.mem h'.mem ∧
            (flags.zero = true → ∀ x, Range a (pgsize * use.cnt) x → h'.mem x = 0)) h := by
  rw [pallocGetMultiple, wp_ite]
  refine ⟨fun _ => rfl, fun hcnt => ?_⟩
  rw [wp_bind, wp_gets, Bitmap.scanAndFlip]
  cases hscan : (h.pool flags.user).usedMap.scan 0 use.cnt false with
  | none =>
    refine (wp_ite _ _).mpr ⟨fun ha => ⟨rfl, ha⟩, fun _ => rfl⟩
  | some idx =>
    obtain ⟨hidx, hclear⟩ := Bitmap.scan_some hscan
    have hfree : ∀ s ∈ spans, Span.Apart ⟨(h.pool flags.user).start + idx, use⟩ s := by
      intro s hs
      by_contra hover
      have hover : ¬ ((h.pool flags.user).start + idx + use.cnt ≤ s.page ∨
        s.page + s.cnt ≤ (h.pool flags.user).start + idx) := hover
      obtain ⟨hpos, -, -⟩ := hp.within s hs
      -- a page of both groups
      have hboth : ∃ page, s.Has page ∧ (h.pool flags.user).start + idx ≤ page ∧
          page < (h.pool flags.user).start + idx + use.cnt :=
        ⟨max s.page ((h.pool flags.user).start + idx), ⟨by omega, by omega⟩, by omega, by omega⟩
      obtain ⟨page, hs', h1, h2⟩ := hboth
      have hused := (hp.used flags.user page ⟨by omega, by omega⟩).mpr ⟨s, hs, hs'⟩
      rw [hclear _ (by omega) (by omega)] at hused
      cases hused
    have hnew : Pages (h.setPool flags.user { h.pool flags.user with
        usedMap := (h.pool flags.user).usedMap.setMultiple idx use.cnt true }).pool
        (⟨(h.pool flags.user).start + idx, use⟩ :: spans) := by
      refine hp.setPool (Bitmap.bitCnt_setMultiple ..) (List.pairwise_cons.mpr ⟨hfree, hp.apart⟩)
        (fun s hs => ?_) (fun u hu page hpage => ?_) fun page hpage => ?_
      · rcases List.mem_cons.mp hs with rfl | hs
        · refine ⟨Nat.pos_of_ne_zero hcnt, ?_, ?_⟩
          · show (h.pool use.user).start ≤ _
            rw [huser]
            exact Nat.le_add_right _ _
          · show _ + use.cnt ≤ (h.pool use.user).start + _
            rw [huser]
            show (h.pool flags.user).start + idx + use.cnt ≤ _
            omega
        · exact hp.within s hs
      · refine ⟨?_, fun ⟨s, hs, hs'⟩ => ⟨s, List.mem_cons_of_mem _ hs, hs'⟩⟩
        rintro ⟨s, hs, hs'⟩
        rcases List.mem_cons.mp hs with rfl | hs
        · refine absurd (hp.layout.user_unique hpage ⟨?_, ?_⟩) hu
          · exact Nat.le_trans (Nat.le_add_right _ _) hs'.1
          · have h2 : page < (h.pool flags.user).start + idx + use.cnt := hs'.2
            omega
        · exact ⟨s, hs, hs'⟩
      · rw [Bitmap.test_setMultiple hidx]
        obtain ⟨h1, h2⟩ := hpage
        have hhead : idx ≤ page - (h.pool flags.user).start ∧
            page - (h.pool flags.user).start < idx + use.cnt ↔
            Span.Has ⟨(h.pool flags.user).start + idx, use⟩ page := by
          show _ ↔ (h.pool flags.user).start + idx ≤ page ∧
            page < (h.pool flags.user).start + idx + use.cnt
          omega
        by_cases hin : idx ≤ page - (h.pool flags.user).start ∧
            page - (h.pool flags.user).start < idx + use.cnt
        · rw [if_pos hin]
          exact ⟨fun _ => ⟨_, List.mem_cons_self, hhead.mp hin⟩, fun _ => rfl⟩
        · rw [if_neg hin, hp.used flags.user page ⟨h1, h2⟩]
          simp only [List.mem_cons, exists_eq_or_imp, hhead.not.mp hin, false_or]
    have haddr : (h.pool flags.user).base + pgsize * idx
        = pgsize * ((h.pool flags.user).start + idx) := by
      rw [Nat.mul_add, ← hp.layout.aligned]
    show Exec.wp _ _ _ h
    rw [Option.map_some]
    refine (wp_bind _ _).mpr ((wp_modify _).mpr ?_)
    simp only [haddr]
    cases flags.zero with
    | false =>
      exact ⟨_, rfl, hnew, descs_setPool .., by rw [mem_setPool]; exact Kept.refl _ _,
        fun hf => absurd hf Bool.false_ne_true⟩
    | true =>
      refine ⟨_, rfl, hnew, descs_setPool .., ?_, fun _ x hx => if_pos hx⟩
      show Kept _ _ ((h.setPool _ _).mem.fill _ _ _)
      rw [mem_setPool]
      exact kept_fill _ _ _ _

@[simp] theorem pgOfs_mul (page : Nat) : pgOfs (pgsize * page) = 0 := Nat.mul_mod_right _ _

@[simp] theorem pgNo_mul (page : Nat) : pgNo (pgsize * page) = page := by
  rw [pgNo, Nat.mul_div_cancel_left _ (by decide)]

theorem pageFromPool_iff {pool : Pool} {page : Nat} :
    pageFromPool pool (pgsize * page) = true ↔ pool.Has page := by
  rw [pageFromPool, pgNo_mul, Bool.and_eq_true, decide_eq_true_iff, decide_eq_true_iff]
  rfl

/-- The pages of a group that is given back are free again. -/
theorem Pages.freeToPool (hp : Pages h.pool (s :: spans)) :
    (freeToPool s.use.user s.addr s.cnt).wp (fun _ => False) (fun _ h' =>
      Pages h'.pool spans ∧ h'.descs = h.descs ∧
      Kept (Range s.addr (pgsize * s.cnt)) h.mem h'.mem) h := by
  obtain ⟨hpos, hlo, hhi⟩ := hp.within s List.mem_cons_self
  obtain ⟨hs, happart⟩ := List.pairwise_cons.mp hp.apart
  rw [Malloc.freeToPool, wp_bind, wp_gets]
  simp only [Span.addr, pgNo_mul]
  rw [wp_bind, wp_modify]
  have hidx : s.page - pgNo (h.pool s.use.user).base + s.cnt ≤
      (h.pool s.use.user).usedMap.bitCnt := by
    show s.page - (h.pool s.use.user).start + s.cnt ≤ _
    omega
  have hall : (h.pool s.use.user).usedMap.all (s.page - pgNo (h.pool s.use.user).base) s.cnt
      = true := by
    refine Bitmap.all_iff.mpr fun k h1 h2 => ?_
    have h1 : s.page - (h.pool s.use.user).start ≤ k := h1
    have h2 : k < s.page - (h.pool s.use.user).start + s.cnt := h2
    have := (hp.used s.use.user (k + (h.pool s.use.user).start) ⟨by omega, by omega⟩).mpr
      ⟨s, List.mem_cons_self, ⟨by omega, by omega⟩⟩
    rwa [Nat.add_sub_cancel] at this
  rw [if_pos ⟨hidx, hall⟩, wp_modify]
  refine ⟨?_, descs_setPool .., by rw [mem_setPool]; exact kept_fill _ _ _ _⟩
  have hp' : Pages (h.setMem (h.mem.fill (pgsize * s.page) (pgsize * s.cnt) 204)).pool (s :: spans) :=
    hp
  refine hp'.setPool (Bitmap.bitCnt_setMultiple ..) happart (fun t ht => hp.within t (List.mem_cons_of_mem _ ht)) (fun u hu page hpage => ?_)
    fun page hpage => ?_
  · refine ⟨fun ⟨t, ht, ht'⟩ => ⟨t, List.mem_cons_of_mem _ ht, ht'⟩, ?_⟩
    rintro ⟨t, ht, ht'⟩
    rcases List.mem_cons.mp ht with rfl | ht
    · exact absurd (hp.layout.user_unique hpage (hp.has List.mem_cons_self ht')) hu
    · exact ⟨t, ht, ht'⟩
  · obtain ⟨h1, h2⟩ := hpage
    have h1 : (h.pool s.use.user).start ≤ page := h1
    rw [pool_setMem, Bitmap.test_setMultiple hidx]
    show (if s.page - (h.pool s.use.user).start ≤ page - (h.pool s.use.user).start ∧ _ <
      s.page - (h.pool s.use.user).start + s.cnt then false else _) = true ↔ _
    by_cases hin : s.Has page
    · rw [if_pos (by obtain ⟨h3, h4⟩ := hin; omega)]
      refine ⟨fun hf => absurd hf Bool.false_ne_true, ?_⟩
      rintro ⟨t, ht, h5, h6⟩
      obtain ⟨h3, h4⟩ := hin
      rcases hs t ht with h7 | h7 <;> omega
    · rw [if_neg (by intro hc; exact hin ⟨by omega, by omega⟩)]
      rw [hp.used s.use.user page ⟨h1, h2⟩]
      simp only [List.mem_cons, exists_eq_or_imp, hin, false_or]

theorem Pages.freeMultiple (hp : Pages h.pool (s :: spans)) :
    (pallocFreeMultiple s.addr s.cnt).wp (fun _ => False) (fun _ h' =>
      Pages h'.pool spans ∧ h'.descs = h.descs ∧
      Kept (Range s.addr (pgsize * s.cnt)) h.mem h'.mem) h := by
  obtain ⟨hpos, hlo, hhi⟩ := hp.within s List.mem_cons_self
  have hkernel := hp.layout.pos
  have horder := hp.layout.order
  have hhas := hp.has List.mem_cons_self ⟨Nat.le_refl s.page, by omega⟩
  have hpage : 0 < s.page := by
    obtain ⟨h1, -⟩ := hhas
    cases hu : s.use.user <;> rw [hu] at h1 <;> omega
  have haddr : s.addr ≠ 0 := Nat.ne_of_gt (Nat.mul_pos (by decide) hpage)
  have hofs : ¬ pgOfs s.addr ≠ 0 := not_not.mpr (pgOfs_mul s.page)
  rw [pallocFreeMultiple, if_neg hofs, if_neg (by omega)]
  refine (wp_bind _ _).mpr ((wp_gets _).mpr ?_)
  have hfree := hp.freeToPool
  cases hu : s.use.user with
  | false =>
    rw [hu] at hhas hfree
    rw [if_pos (show pageFromPool h.kernelPool s.addr = true from pageFromPool_iff.mpr hhas)]
    exact hfree
  | true =>
    rw [hu] at hhas hfree
    have hnot : ¬ pageFromPool h.kernelPool s.addr = true := fun hk => by
      have := hp.layout.user_unique hhas (v := false) (pageFromPool_iff.mp hk)
      cases this
    rw [if_neg hnot]
    refine (wp_bind _ _).mpr ((wp_gets _).mpr ?_)
    rw [if_pos (show pageFromPool h.userPool s.addr = true from pageFromPool_iff.mpr hhas)]
    exact hfree

end

end Pintos.Malloc

import Pintos.Properties.Writing

/-!
# What a call asks of `malloc`

A run reads the answers of `malloc` to its own calls and no others, so with memory for these it is
one in which memory never runs out (`SameRun`).

* `inodeReserve_pays` — an extension that succeeds had memory for all its calls, unless an index
  block was refused.
* `writeLoop_first` — a write in the file writes nothing if and only if its first sector needs a
  bounce buffer and there is no memory for it.
-/

namespace Pintos.Filesys

open Pintos.Logic Pintos.Logic.Exec Pintos.Lib

variable {s s' s'' : Fs} {α β : Type}

/-- The state with other answers of `malloc` and other events on record. -/
def Fs.given (s : Fs) (mallocs : Nat → Bool) (events : List Event) : Fs :=
  { s with env.mallocs := mallocs, history.events := events }

/-- The answers agree for the calls of `malloc` between two states. -/
def AgreeOn (s s' : Fs) (mallocs : Nat → Bool) : Prop :=
  ∀ n, s.clock.mallocs ≤ n → n < s'.clock.mallocs → mallocs n = s.env.mallocs n

/-- The run would be the same with other answers to calls of `malloc` that are not its own, and
whatever had been recorded before. -/
structure SameRun (x : Kernel α) (s : Fs) (a : α) (s' : Fs) : Prop where
  env : s'.env = s.env
  le : s.clock.mallocs ≤ s'.clock.mallocs
  run : ∃ new, s'.history.events = new ++ s.history.events ∧
    ∀ mallocs events, AgreeOn s s' mallocs →
      x (s.given mallocs events) = .ok (a, s'.given mallocs (new ++ events))

/-- A run reads the answers to its own calls of `malloc` only, and no events. -/
def ReadsOwn (x : Kernel α) : Prop := ∀ s, x.wp (fun _ => True) (fun a s' => SameRun x s a s') s

/-! ## Elementary steps -/

theorem ReadsOwn.pure (a : α) : ReadsOwn (Pure.pure a : Kernel α) := fun _ =>
  ⟨rfl, Nat.le_refl _, [], rfl, fun _ _ _ => rfl⟩

theorem ReadsOwn.fail (fault : Fault) : ReadsOwn (fail fault : Kernel α) := fun _ => trivial

theorem ReadsOwn.bind {x : Kernel α} {f : α → Kernel β} (hx : ReadsOwn x)
    (hf : ∀ a, ReadsOwn (f a)) : ReadsOwn (x >>= f) := by
  intro s
  rw [wp_bind]
  have hs := hx s
  unfold wp at hs ⊢
  cases hrun : x s with
  | error e => trivial
  | ok r =>
    obtain ⟨a, s₁⟩ := r
    rw [hrun] at hs
    obtain ⟨new, hnew, hfirst⟩ := hs.run
    refine wp_mono (hf a s₁) (fun _ h => h) fun b s₂ h₂ => ?_
    obtain ⟨new', hnew', hsecond⟩ := h₂.run
    refine ⟨h₂.env.trans hs.env, hs.le.trans h₂.le, new' ++ new, ?_, fun mallocs events hagree => ?_⟩
    · rw [hnew', hnew, List.append_assoc]
    have hagree₁ : AgreeOn s s₁ mallocs := fun n hlo hhi =>
      hagree n hlo (Nat.lt_of_lt_of_le hhi h₂.le)
    have hagree₂ : AgreeOn s₁ s₂ mallocs := fun n hlo hhi =>
      (hagree n (hs.le.trans hlo) hhi).trans (by rw [hs.env])
    rw [run_bind (hfirst mallocs events hagree₁), List.append_assoc]
    exact hsecond mallocs _ hagree₂

theorem ReadsOwn.ite {c : Prop} [Decidable c] {x y : Kernel α} (hx : ReadsOwn x)
    (hy : ReadsOwn y) : ReadsOwn (if c then x else y) := by
  split
  · exact hx
  · exact hy

/-- What is read depends neither on the answers of `malloc` nor on the events. -/
theorem ReadsOwn.gets {f : Fs → α} (hf : ∀ s mallocs events, f (s.given mallocs events) = f s) :
    ReadsOwn (Exec.gets f) := fun s => ⟨rfl, Nat.le_refl _, [], rfl, fun mallocs events _ => by
  show Except.ok (f (s.given mallocs events), s.given mallocs events) = _
  rw [hf]
  rfl⟩

/-- A change that neither reads nor changes the answers of `malloc`, and may record an event. -/
theorem ReadsOwn.modify {f : Fs → Fs} (henv : ∀ s, (f s).env = s.env ∧ (f s).clock = s.clock)
    (hf : ∀ s, ∃ new, (f s).history.events = new ++ s.history.events ∧
      ∀ mallocs events, f (s.given mallocs events) = (f s).given mallocs (new ++ events)) :
    ReadsOwn (Exec.modify f) := by
  intro s
  obtain ⟨new, hnew, hrun⟩ := hf s
  refine ⟨(henv s).1, Nat.le_of_eq (by rw [(henv s).2]), new, hnew, fun mallocs events _ => ?_⟩
  show Except.ok ((), f (s.given mallocs events)) = _
  rw [hrun]

theorem malloc_readsOwn : ReadsOwn malloc := fun s =>
  ⟨rfl, Nat.le_succ _, [], rfl, fun mallocs _ hagree => by
    show Except.ok (mallocs s.clock.mallocs, _) = _
    rw [hagree s.clock.mallocs (Nat.le_refl _) (Nat.lt_succ_self _)]
    rfl⟩

theorem deref_readsOwn (inode : Addr) : ReadsOwn (deref inode) := by
  intro s
  unfold wp deref
  cases hi : s.inode? inode with
  | none => trivial
  | some i =>
    refine ⟨rfl, Nat.le_refl _, [], rfl, fun mallocs events _ => ?_⟩
    have hi' : (s.given mallocs events).inode? inode = some i := hi
    simp only [hi']
    rfl

theorem readSector_readsOwn (sector : Nat) : ReadsOwn (readSector sector) := by
  intro s
  unfold wp readSector
  cases h : s.store.read sector (s.env.ticks s.clock.steps) with
  | error e => trivial
  | ok r =>
    refine ⟨rfl, Nat.le_refl _, [], rfl, fun mallocs events _ => ?_⟩
    have h' : (s.given mallocs events).store.read sector ((s.given mallocs events).env.ticks
        (s.given mallocs events).clock.steps) = .ok r := h
    simp only [h']
    rfl

theorem writeSector_readsOwn (sector : Nat) (b : Block) : ReadsOwn (writeSector sector b) := by
  intro s
  unfold wp writeSector
  cases h : s.store.write sector b (s.env.ticks s.clock.steps) with
  | error e => trivial
  | ok st =>
    refine ⟨rfl, Nat.le_refl _, [], rfl, fun mallocs events _ => ?_⟩
    have h' : (s.given mallocs events).store.write sector b ((s.given mallocs events).env.ticks
        (s.given mallocs events).clock.steps) = .ok st := h
    simp only [h']
    rfl

theorem record_readsOwn (event : Event) : ReadsOwn (record event) :=
  .modify (fun _ => ⟨rfl, rfl⟩) fun _ => ⟨[event], rfl, fun _ _ => rfl⟩

theorem setFreeMap_readsOwn (f : Bitmap → Bitmap) : ReadsOwn (setFreeMap f) :=
  .modify (fun _ => ⟨rfl, rfl⟩) fun _ => ⟨[], rfl, fun _ _ => rfl⟩

theorem modifyInode_readsOwn (inode : Addr) (f : Inode → Inode) :
    ReadsOwn (modifyInode inode f) :=
  .modify (fun _ => ⟨rfl, rfl⟩) fun _ => ⟨[], rfl, fun _ _ => rfl⟩

/-! ## Calls with memory -/

/-- Memory was there for each call of `malloc` between two states. -/
def HadMemory (s s' : Fs) : Prop :=
  ∀ n, s.clock.mallocs ≤ n → n < s'.clock.mallocs → s.env.mallocs n = true

/-- The call returns, and memory was there for each call of `malloc` it has made. -/
def Supplied (x : Kernel α) (s : Fs) : Prop := ∃ a s', x s = .ok (a, s') ∧ HadMemory s s'

theorem HadMemory.trans (h : HadMemory s s') (h' : HadMemory s' s'') (henv : s'.env = s.env) :
    HadMemory s s'' := by
  intro n hlo hhi
  rcases Nat.lt_or_ge n s'.clock.mallocs with hlt | hge
  · exact h n hlo hlt
  · exact henv ▸ h' n hge hhi

theorem supplied_iff {x : Kernel α} {a : α} (hrun : x s = .ok (a, s')) :
    Supplied x s ↔ HadMemory s s' := by
  refine ⟨?_, fun h => ⟨a, s', hrun, h⟩⟩
  rintro ⟨a', s'', hrun', h⟩
  obtain ⟨-, rfl⟩ := Prod.mk.inj (Except.ok.inj (hrun.symm.trans hrun'))
  exact h

/-! ## Results that need memory -/

theorem ReadsOwn.same {x : Kernel α} {a : α} (hx : ReadsOwn x) (hrun : x s = .ok (a, s')) :
    SameRun x s a s' := wp_ok (hx s) hrun

theorem SameRun.mem_events {x : Kernel α} {a : α} {e : Event} (h : SameRun x s a s')
    (he : e ∈ s.history.events) : e ∈ s'.history.events := by
  obtain ⟨new, hnew, -⟩ := h.run
  exact hnew ▸ List.mem_append_right new he

/-- The run comes to a value in `P` only if there was memory for its calls of `malloc`, or where an
index block has been refused. -/
structure Pays (x : Kernel α) (P : α → Prop) : Prop where
  own : ReadsOwn x
  memory : ∀ s a s', x s = .ok (a, s') → P a →
    HadMemory s s' ∨ .indexRefused ∈ s'.history.events

/-- The run comes to a value in `P` only where an index block has been refused. -/
structure Never (x : Kernel α) (P : α → Prop) : Prop where
  own : ReadsOwn x
  refused : ∀ s a s', x s = .ok (a, s') → P a → .indexRefused ∈ s'.history.events

section Pays

variable {x y : Kernel α} {f : α → Kernel β} {P P' : α → Prop} {Q : β → Prop}

theorem Never.pure {a : α} (ha : ¬ P a) : Never (Pure.pure a : Kernel α) P where
  own := .pure a
  refused _ _ _ hrun h := by
    cases hrun
    exact absurd h ha

theorem Never.fail (fault : Fault) : Never (fail fault : Kernel α) P where
  own := .fail fault
  refused _ _ _ hrun _ := by cases hrun

theorem Never.bind (hx : ReadsOwn x) (hf : ∀ a, Never (f a) Q) : Never (x >>= f) Q where
  own := hx.bind fun a => (hf a).own
  refused s b s'' hrun hb := by
    obtain ⟨a, s', -, hsecond⟩ := run_bind_ok hrun
    exact (hf a).refused s' b s'' hsecond hb

/-- An index block is refused. -/
theorem Never.record {f : Unit → Kernel β} (hf : ∀ a, ReadsOwn (f a)) :
    Never (record .indexRefused >>= f) Q where
  own := (record_readsOwn _).bind hf
  refused s b s'' hrun _ := by
    obtain ⟨a, s', hfirst, hsecond⟩ := run_bind_ok hrun
    cases hfirst
    exact ((hf ()).same hsecond).mem_events List.mem_cons_self

theorem Never.else {c : Prop} [Decidable c] (hc : ¬ c) (h : Never y P) :
    Never (if c then x else y) P := by
  rwa [if_neg hc]

theorem Never.pays (h : Never x P) : Pays x P :=
  ⟨h.own, fun s a s' hrun ha => .inr (h.refused s a s' hrun ha)⟩

theorem Pays.mono (h : Pays x P) (hP : ∀ a, P' a → P a) : Pays x P' :=
  ⟨h.own, fun s a s' hrun ha => h.memory s a s' hrun (hP a ha)⟩

/-- A run without a call of `malloc`. -/
theorem ReadsOwn.pays (hx : ReadsOwn x)
    (h : ∀ s a s', x s = .ok (a, s') → s'.clock.mallocs = s.clock.mallocs) : Pays x P where
  own := hx
  memory s a s' hrun _ := by
    refine .inl fun n hlo hhi => ?_
    rw [h s a s' hrun] at hhi
    exact absurd hlo (Nat.not_le.mpr hhi)

theorem Pays.pure (a : α) : Pays (Pure.pure a : Kernel α) P :=
  (ReadsOwn.pure a).pays fun _ _ _ hrun => by
    cases hrun
    rfl

theorem Pays.gets {g : Fs → α} (hg : ∀ s mallocs events, g (s.given mallocs events) = g s) :
    Pays (Exec.gets g) P :=
  (ReadsOwn.gets hg).pays fun _ _ _ hrun => by
    cases hrun
    rfl

theorem Pays.bind (hx : Pays x P) (hpays : ∀ a, P a → Pays (f a) Q)
    (hnever : ∀ a, ¬ P a → Never (f a) Q) : Pays (x >>= f) Q := by
  have hf : ∀ a, ReadsOwn (f a) := fun a =>
    (Classical.em (P a)).elim (fun ha => (hpays a ha).own) fun ha => (hnever a ha).own
  refine ⟨hx.own.bind hf, fun s b s'' hrun hb => ?_⟩
  obtain ⟨a, s', hfirst, hsecond⟩ := run_bind_ok hrun
  by_cases ha : P a
  · rcases hx.memory s a s' hfirst ha with hm | he
    · exact ((hpays a ha).memory s' b s'' hsecond hb).imp_left fun hm' =>
        hm.trans hm' (hx.own.same hfirst).env
    · exact .inr (((hf a).same hsecond).mem_events he)
  · exact .inr ((hnever a ha).refused s' b s'' hsecond hb)

/-- The first part pays whatever it returns. -/
theorem Pays.then (hx : Pays x fun _ => True) (hpays : ∀ a, Pays (f a) Q) : Pays (x >>= f) Q :=
  hx.bind (fun a _ => hpays a) fun _ ha => absurd trivial ha

theorem Pays.ite {c : Prop} [Decidable c] (hx : Pays x P) (hy : Pays y P) :
    Pays (if c then x else y) P := by
  split
  · exact hx
  · exact hy

end Pays

section Elementary

variable {P : Unit → Prop}

theorem malloc_pays : Pays malloc (· = true) where
  own := malloc_readsOwn
  memory s a s' hrun ha := by
    cases hrun
    refine .inl fun n hlo hhi => ?_
    obtain rfl : n = s.clock.mallocs := Nat.le_antisymm (Nat.le_of_lt_succ hhi) hlo
    exact ha

theorem mallocUnchecked_pays : Pays mallocUnchecked P :=
  malloc_pays.bind (fun _ _ => .ite (.pure _) (Never.fail _).pays) fun a ha => by
    rw [if_neg ha]
    exact .fail _

theorem deref_pays (inode : Addr) {P : Inode → Prop} : Pays (deref inode) P := by
  refine (deref_readsOwn inode).pays fun s i s' hrun => ?_
  unfold deref at hrun
  split at hrun
  · cases hrun
    rfl
  · cases hrun

theorem readSector_pays (sector : Nat) {P : Block → Prop} : Pays (readSector sector) P := by
  refine (readSector_readsOwn sector).pays fun s b s' hrun => ?_
  unfold readSector at hrun
  split at hrun
  · cases hrun
    rfl
  · cases hrun

theorem writeSector_pays (sector : Nat) (b : Block) : Pays (writeSector sector b) P := by
  refine (writeSector_readsOwn sector b).pays fun s _ s' hrun => ?_
  unfold writeSector at hrun
  split at hrun
  · cases hrun
    rfl
  · cases hrun

theorem modifyInode_pays (inode : Addr) (f : Inode → Inode) : Pays (modifyInode inode f) P :=
  (modifyInode_readsOwn inode f).pays fun _ _ _ hrun => by
    cases hrun
    rfl

end Elementary

/-! ## Writing -/

theorem indexToSector_pays (idisk : Block) (index : Nat) {P : Nat → Prop} :
    Pays (indexToSector idisk index) P := by
  unfold indexToSector
  dsimp only
  split
  · exact .pure _
  split
  · exact mallocUnchecked_pays.then fun _ => (readSector_pays _).then fun _ => .pure _
  split
  · exact mallocUnchecked_pays.then fun _ => (readSector_pays _).then fun _ =>
      (readSector_pays _).then fun _ => .pure _
  · exact .pure _

theorem byteToSector_pays (inode : Inode) (pos : Int) {P : Nat → Prop} :
    Pays (byteToSector inode pos) P := .ite (.pure _) (indexToSector_pays _ _)

/-- A loop that writes all it is given had memory. -/
theorem writeLoop_pays (inode : Addr) (buffer : Nat → UInt8) (fuel : Nat) :
    ∀ (size offset written : Int) (bounce : Bool),
      Pays (writeLoop inode buffer fuel size offset written bounce) (written + size ≤ ·) := by
  induction fuel with
  | zero => exact fun _ _ _ _ => .pure _
  | succ fuel ih =>
    intro size offset written bounce
    unfold writeLoop
    by_cases hsize : size ≤ 0
    · rw [if_pos hsize]
      exact .pure _
    rw [if_neg hsize]
    refine (deref_pays _).then fun i => (byteToSector_pays _ _).then fun sector => ?_
    have hrest : ∀ (chunk : Int) (b : Block) bounce,
        Pays (writeSector sector b >>= fun _ => writeLoop inode buffer fuel (size - chunk)
          (offset + chunk) (written + chunk) bounce) (written + size ≤ ·) :=
      fun chunk b bounce => (writeSector_pays _ _).then fun _ =>
        (ih _ _ _ bounce).mono fun r hr => by omega
    refine .ite (.pure _) (.ite (hrest _ _ _) ?_)
    have hbounce : Pays (if bounce then Pure.pure true else malloc : Kernel Bool) (· = true) :=
      .ite (.pure _) malloc_pays
    refine hbounce.bind (fun _ _ => .ite ?_ (.pure _)) fun _ hrefused =>
      .else hrefused (.pure (by omega))
    exact (Pays.ite (readSector_pays _) (.pure _)).then fun _ => hrest _ _ _

section Reserve

variable {alloc : Kernel (Option Nat)}

theorem inodeReserveDirect_pays (ha : Pays alloc (·.isSome)) (entry : Nat) :
    Pays (inodeReserveDirect alloc entry) (·.1 = true) := by
  refine .ite (ha.bind (fun r hr => ?_) fun r hr => ?_) (.pure _)
  · obtain ⟨sector, rfl⟩ := Option.isSome_iff_exists.mp hr
    exact (writeSector_pays _ _).then fun _ => .pure _
  · obtain rfl := Option.not_isSome_iff_eq_none.mp hr
    exact .pure Bool.false_ne_true

theorem reserveEntries_pays {child : Nat → Nat → Kernel (Bool × Nat)}
    (hc : ∀ entry num, Pays (child entry num) (·.1 = true)) (unit todo : Nat) :
    ∀ (i num : Nat) (blk : Block),
      Pays (reserveEntries child unit todo i num blk) (·.1 = true) := by
  induction todo with
  | zero => exact fun _ _ _ => .pure _
  | succ todo ih =>
    intro i num blk
    exact (hc _ _).bind (fun r _ => .ite (ih _ _ _) (.pure _)) fun r hr =>
      .else hr (.pure Bool.false_ne_true)

theorem reserveIndexBlock_pays (ha : Pays alloc (·.isSome)) (entry : Nat) {P : Nat → Prop} :
    Pays (reserveIndexBlock alloc entry) P := by
  refine .ite (ha.bind (fun r hr => ?_) fun r hr => ?_) (.pure _)
  · obtain ⟨sector, rfl⟩ := Option.isSome_iff_exists.mp hr
    exact (writeSector_pays _ _).then fun _ => .pure _
  · obtain rfl := Option.not_isSome_iff_eq_none.mp hr
    exact .record fun _ => (writeSector_readsOwn _ _).bind fun _ => .pure _

theorem inodeReserveIndirect_pays (ha : Pays alloc (·.isSome)) (level : Nat) :
    ∀ entry num, Pays (inodeReserveIndirect alloc level entry num) (·.1 = true) := by
  induction level with
  | zero => exact fun entry _ => inodeReserveDirect_pays ha entry
  | succ level ih =>
    intro entry num
    exact (reserveIndexBlock_pays ha _).then fun _ => (readSector_pays _).then fun _ =>
      (reserveEntries_pays ih _ _ _ _ _).bind
        (fun _ _ => .ite ((writeSector_pays _ _).then fun _ => .pure _) (.pure _)) fun r hr =>
          .else hr (.pure Bool.false_ne_true)

/-- An extension that succeeds had memory. -/
theorem inodeReserve_pays (ha : Pays alloc (·.isSome)) (disk : Block) (length : Int) :
    Pays (inodeReserve alloc disk length) (·.1 = true) := by
  have hfailed : ∀ {x : Kernel (Bool × Block)} {ok : Bool} {disk : Block}, ¬ ok = true →
      Never (if !ok then Pure.pure (false, disk) else x) (·.1 = true) := by
    intro x ok disk hr
    obtain rfl := Bool.eq_false_of_not_eq_true hr
    exact .pure Bool.false_ne_true
  refine .ite (.pure _) ((reserveEntries_pays
    (fun entry _ => inodeReserveDirect_pays ha entry) _ _ _ _ _).bind (fun r _ => ?_) fun r hr =>
      hfailed hr)
  refine .ite (.pure _) (.ite (.pure _) ?_)
  refine (inodeReserveIndirect_pays ha _ _ _).bind (fun r _ => ?_) fun r hr => hfailed hr
  refine .ite (.pure _) (.ite (.pure _) ?_)
  exact (inodeReserveIndirect_pays ha _ _ _).bind (fun r _ => .pure _) fun r hr =>
    .pure fun h => hr (Bool.and_eq_true_iff.mp h).1

theorem extend_pays (ha : Pays alloc (·.isSome)) (inode : Addr) (i : Inode) (length : Int) :
    Pays (extend alloc inode i length) (· = true) := by
  refine (inodeReserve_pays ha _ _).bind (fun r _ => .ite ?_ ?_) fun r hr => .else hr ?_
  · exact (modifyInode_pays _ _).then fun _ => (writeSector_pays _ _).then fun _ => .pure _
  · exact (modifyInode_pays _ _).then fun _ => .pure _
  · exact .bind (modifyInode_readsOwn _ _) fun _ => .pure Bool.false_ne_true

/-- A write that writes all it is given had memory. -/
theorem inodeWriteAtWith_pays (ha : Pays alloc (·.isSome)) (inode : Addr) (buffer : Nat → UInt8)
    (size offset : Int) :
    Pays (inodeWriteAtWith alloc inode buffer size offset) (fun r => 0 < size ∧ size ≤ r) := by
  refine (deref_pays _).then fun i => .ite (.pure _) ?_
  refine (byteToSector_pays _ _).then fun last => ?_
  have hready : Pays (if last = noSector then extend alloc inode i (wrap32 (offset + size))
      else Pure.pure true) (· = true) := .ite (extend_pays ha _ _ _) (.pure _)
  exact hready.bind (fun _ _ => .ite ((writeLoop_pays _ _ _ _ _ _ _).mono fun r hr => by omega)
    (.pure _)) fun _ hr => .else hr (.pure (by omega))

theorem bitmapWriteWith_readsOwn (ha : Pays alloc (·.isSome)) (file : File) :
    ReadsOwn (bitmapWriteWith alloc file) :=
  (ReadsOwn.gets fun _ _ _ => rfl).bind fun _ =>
    (inodeWriteAtWith_pays ha _ _ _ _).own.bind fun _ => .pure _

theorem bitmapWriteWith_memory (ha : Pays alloc (·.isSome)) {file : File}
    (hrun : bitmapWriteWith alloc file s = .ok (true, s')) (hpos : 0 < s.freeMap.bitCnt) :
    HadMemory s s' ∨ .indexRefused ∈ s'.history.events := by
  obtain ⟨b, s₁, hget, hrun⟩ := run_bind_ok hrun
  cases hget
  obtain ⟨written, s₁, hwrite, hrun⟩ := run_bind_ok hrun
  obtain ⟨hall, rfl⟩ := Prod.mk.inj (Except.ok.inj hrun)
  have hbytes := byteCnt_pos hpos
  exact (inodeWriteAtWith_pays ha _ _ _ _).memory _ _ _ hwrite
    ⟨Int.natCast_pos.mpr hbytes, (of_decide_eq_true hall).ge⟩

end Reserve

/-- A sector is handed out only if there was memory. -/
theorem freeMapAllocateAt_pays (depth : Nat) : Pays (freeMapAllocateAt 1 depth) (·.isSome) := by
  induction depth with
  | zero => exact (Never.fail _).pays
  | succ depth ih =>
    refine ⟨(ReadsOwn.gets fun _ _ _ => rfl).bind fun b => ?_, fun s r s' hrun hr => ?_⟩
    · cases b.scan 0 1 false with
      | none => exact (record_readsOwn _).bind fun _ => .pure _
      | some sector =>
        refine (setFreeMap_readsOwn _).bind fun _ =>
          (ReadsOwn.gets fun _ _ _ => rfl).bind fun file => ?_
        cases file with
        | none => exact .pure _
        | some file =>
          refine (bitmapWriteWith_readsOwn ih _).bind fun _ => .ite (.pure _) ?_
          exact (setFreeMap_readsOwn _).bind fun _ => (record_readsOwn _).bind fun _ => .pure _
    · obtain ⟨b, s₁, hget, hrun⟩ := run_bind_ok hrun
      cases hget
      cases hscan : s.freeMap.scan 0 1 false with
      | none =>
        rw [hscan] at hrun
        obtain ⟨_, _, -, hrun⟩ := run_bind_ok hrun
        cases hrun
        cases hr
      | some sector =>
        rw [hscan] at hrun
        obtain ⟨_, s₂, hset, hrun⟩ := run_bind_ok hrun
        cases hset
        obtain ⟨file, s₃, hfile, hrun⟩ := run_bind_ok hrun
        obtain ⟨-, rfl⟩ := Prod.mk.inj (Except.ok.inj hfile)
        cases file with
        | none =>
          cases hrun
          exact .inl fun n hlo hhi => absurd hlo (Nat.not_le.mpr hhi)
        | some file =>
          obtain ⟨ok, s₄, hwrite, hrun⟩ := run_bind_ok hrun
          cases ok with
          | true =>
            cases hrun
            have hpos : 0 < s.freeMap.bitCnt := Nat.zero_lt_of_lt (Bitmap.scan_one_some hscan).1
            have hmemory := bitmapWriteWith_memory ih hwrite
            exact hmemory (hpos.trans_eq (Bitmap.bitCnt_setMultiple sector 1 true).symm)
          | false =>
            obtain ⟨_, _, -, hrun⟩ := run_bind_ok hrun
            obtain ⟨_, _, -, hrun⟩ := run_bind_ok hrun
            cases hrun
            cases hr

theorem freeMapAllocate_pays : Pays freeMapAllocate (·.isSome) :=
  (Pays.gets fun _ _ _ => rfl).then fun _ => freeMapAllocateAt_pays _

/-! ## The first sector of a write -/

/-- Memory is refused to the bounce buffer of a write at `o`, which is asked for after `n` calls of
`malloc` and that of `index_to_sector` from sector 123 of the file on. -/
def BounceRefused (env : Env) (n o : Nat) : Prop :=
  if o / blockSectorSize < directBlocksCount then env.mallocs n = false
  else env.mallocs n = true ∧ env.mallocs (n + 1) = false

/-- The first sector of a write of `size` bytes at `o` is written in part, and there is no memory
for the bounce buffer. -/
def Bounceless (env : Env) (n : Nat) (size : Int) (o : Nat) : Prop :=
  ¬ (o % blockSectorSize = 0 ∧ (blockSectorSize : Int) ≤ size) ∧ BounceRefused env n o

theorem readSector_clock (sector : Nat) (s : Fs) :
    (readSector sector).wp (·.fault ≠ .nullDeref)
      (fun _ s' => s'.clock.mallocs = s.clock.mallocs) s := by
  unfold wp readSector
  cases h : s.store.read sector (s.env.ticks s.clock.steps) with
  | error e =>
    rw [Store.error_of_read h]
    exact nofun
  | ok r => rfl

theorem writeSector_clock (sector : Nat) (b : Block) (s : Fs) :
    (writeSector sector b).wp (fun _ => True)
      (fun _ s' => s'.clock.mallocs = s.clock.mallocs) s := by
  unfold wp writeSector
  cases s.store.write sector b (s.env.ticks s.clock.steps) with
  | error e => trivial
  | ok st => rfl

theorem mallocUnchecked_clock (s : Fs) :
    mallocUnchecked.wp (fun _ => s.env.mallocs s.clock.mallocs = false)
      (fun _ s' => s.env.mallocs s.clock.mallocs = true ∧
        s'.clock.mallocs = s.clock.mallocs + 1) s := by
  unfold mallocUnchecked
  rw [wp_bind]
  show (if s.env.mallocs s.clock.mallocs = true then Pure.pure () else
    fail .nullDeref : Kernel Unit).wp _ _ _
  rw [wp_ite, wp_pure, wp_fail]
  exact ⟨fun h => ⟨h, rfl⟩, Bool.eq_false_of_not_eq_true⟩

/-- The index of a sector of data is looked up with a call of `calloc` from 123 on. -/
theorem indexToSector_clock (disk : Block) {idx : Nat} (hidx : idx < 16635) (s : Fs) :
    (indexToSector disk idx).wp
      (fun e => e.fault = .nullDeref →
        directBlocksCount ≤ idx ∧ s.env.mallocs s.clock.mallocs = false)
      (fun _ s' => (idx < directBlocksCount ∧ s'.clock.mallocs = s.clock.mallocs) ∨
        directBlocksCount ≤ idx ∧ s.env.mallocs s.clock.mallocs = true ∧
          s'.clock.mallocs = s.clock.mallocs + 1) s := by
  rcases Nat.lt_or_ge idx directBlocksCount with hdirect | hle
  · rw [indexToSector, if_pos hdirect, wp_pure]
    exact .inl ⟨hdirect, rfl⟩
  have hdirect := Nat.not_lt.mpr hle
  rcases Nat.lt_or_ge (idx - directBlocksCount) indirectBlocksPerSector with hone | htwo
  · rw [indexToSector, if_neg hdirect, if_pos hone, wp_bind]
    refine wp_mono (mallocUnchecked_clock s) (fun _ hm _ => ⟨hle, hm⟩) fun _ s₁ h₁ => ?_
    rw [wp_bind]
    refine wp_mono (readSector_clock _ s₁) (fun _ hne he => absurd he hne) fun _ s₂ h₂ => ?_
    exact .inr ⟨hle, h₁.1, h₂.trans h₁.2⟩
  · have hlt : idx - directBlocksCount - indirectBlocksPerSector <
        indirectBlocksPerSector * indirectBlocksPerSector := by
      simp only [directBlocksCount, indirectBlocksPerSector]
      omega
    rw [indexToSector, if_neg hdirect, if_neg (Nat.not_lt.mpr htwo), if_pos hlt, wp_bind]
    refine wp_mono (mallocUnchecked_clock s) (fun _ hm _ => ⟨hle, hm⟩) fun _ s₁ h₁ => ?_
    rw [wp_bind]
    refine wp_mono (readSector_clock _ s₁) (fun _ hne he => absurd he hne) fun _ s₂ h₂ => ?_
    rw [wp_bind]
    refine wp_mono (readSector_clock _ s₂) (fun _ hne he => absurd he hne) fun _ s₃ h₃ => ?_
    exact .inr ⟨hle, h₁.1, (h₃.trans h₂).trans h₁.2⟩

/-- What has been written is not lost in the rest of the loop. -/
theorem writeLoop_ge (inode : Addr) (buffer : Nat → UInt8) (fuel : Nat) :
    ∀ (size offset written : Int) (bounce : Bool),
      (writeLoop inode buffer fuel size offset written bounce).Returns (written ≤ ·) := by
  induction fuel with
  | zero => exact fun _ _ _ _ => .pure (Int.le_refl _)
  | succ fuel ih =>
    intro size offset written bounce
    unfold writeLoop
    refine .ite (.pure (Int.le_refl _)) (.bind fun i => .bind fun sector => ?_)
    dsimp only
    split
    · exact .pure (Int.le_refl _)
    · next hchunk =>
      have hrest : ∀ (chunk : Int) (b : Block) bounce, ¬ chunk ≤ 0 →
          (writeSector sector b >>= fun _ => writeLoop inode buffer fuel (size - chunk)
            (offset + chunk) (written + chunk) bounce).Returns (written ≤ ·) :=
        fun chunk b bounce hpos => .bind fun _ s => wp_mono (ih _ _ _ _ s) (fun _ h => h)
          fun r _ hr => by omega
      refine .ite (hrest _ _ _ hchunk) (.bind fun granted => .ite ?_ (.pure (Int.le_refl _)))
      exact .bind fun _ => hrest _ _ _ hchunk

theorem byteToSector_clock {i : Inode} {pos : Nat} (hpos : (pos : Int) < inodeLength i)
    (hidx : pos / blockSectorSize < 16635) (s : Fs) :
    (byteToSector i pos).wp
      (fun e => e.fault = .nullDeref →
        directBlocksCount ≤ pos / blockSectorSize ∧ s.env.mallocs s.clock.mallocs = false)
      (fun _ s' =>
        (pos / blockSectorSize < directBlocksCount ∧ s'.clock.mallocs = s.clock.mallocs) ∨
        directBlocksCount ≤ pos / blockSectorSize ∧ s.env.mallocs s.clock.mallocs = true ∧
          s'.clock.mallocs = s.clock.mallocs + 1) s := by
  have hin : ¬ ((pos : Int) < 0 ∨ inodeLength i ≤ pos) := by omega
  have hdiv : ((pos : Int) / (blockSectorSize : Nat)).toNat = pos / blockSectorSize := rfl
  rw [byteToSector, if_neg hin, hdiv]
  exact indexToSector_clock i.data hidx s

/-- A write in the file writes nothing where there is no memory for the bounce buffer of its first
sector. -/
theorem writeLoop_first {a : Addr} {i : Inode} {size : Int} {o : Nat} (h : OpenFile s a i)
    (buffer : Nat → UInt8) (hsize : 0 < size) (hlen : o + size ≤ inodeLength i) :
    (writeLoop a buffer size.toNat size o 0 false).wp
      (fun _ => ¬ Bounceless s.env s.clock.mallocs size o)
      (fun r _ => r = 0 ↔ Bounceless s.env s.clock.mallocs size o) s := by
  obtain ⟨fuel, hfuel⟩ := Nat.exists_eq_succ_of_ne_zero (show size.toNat ≠ 0 by omega)
  have hpos : (o : Int) < inodeLength i := by omega
  have hidx : o / blockSectorSize < 16635 := by
    have hle := h.whole.length_le
    simp only [inodeLength, blockSectorSize] at hpos hle ⊢
    omega
  have hlookup := wp_and (byteToSector_spec h.mapped) (byteToSector_clock hpos hidx s)
  obtain ⟨c, hc⟩ := exists_isChunk (Int.not_le.mpr hsize) hpos
  have hchunk := hc.pos
  have hofs : (o : Int).tmod (blockSectorSize : Nat) = ((o % blockSectorSize : Nat) : Int) := rfl
  rw [hfuel, writeLoop, if_neg (Int.not_le.mpr hsize), wp_bind]
  refine wp_deref h.inode ?_
  rw [wp_bind]
  refine wp_mono hlookup (fun e he hnone => ?_) fun k s₁ h₁ => ?_
  · obtain ⟨hge, hm⟩ := he.2 he.1.1
    have hnone := hnone.2
    rw [BounceRefused, if_neg (Nat.not_lt.mpr hge), hm] at hnone
    cases hnone.1
  obtain ⟨⟨hlooks, -⟩, hclock⟩ := h₁
  -- the rest, where the first sector is written
  have hloop : ∀ bounce,
      (writeLoop a buffer fuel (size - c) (o + c) (0 + c) bounce).Returns ((c : Int) ≤ ·) := by
    intro bounce s₂
    exact wp_mono (writeLoop_ge a buffer fuel _ _ _ bounce s₂) (fun _ h => h) fun r _ hr => by omega
  have hrest : ∀ {y : Kernel Int} {s₂ : Fs}, y.Returns ((c : Int) ≤ ·) →
      ¬ Bounceless s.env s.clock.mallocs size o →
      y.wp (fun _ => ¬ Bounceless s.env s.clock.mallocs size o)
        (fun r _ => r = 0 ↔ Bounceless s.env s.clock.mallocs size o) s₂ := by
    intro y s₂ hy hn
    exact wp_mono (hy s₂) (fun _ _ => hn) fun r _ hr =>
      ⟨fun h0 => by omega, fun hb => absurd hb hn⟩
  have hmin := hc.eq
  have hfits := hc.le_size
  dsimp only
  rw [hc.eq, if_neg (by omega)]
  by_cases hfull : (o : Int).tmod (blockSectorSize : Nat) = 0 ∧ (c : Int) = (blockSectorSize : Nat)
  · rw [if_pos hfull]
    refine hrest (.bind fun _ => hloop _) fun hb => hb.1 ⟨?_, ?_⟩
    · exact Int.ofNat_inj.mp (hofs.symm.trans hfull.1)
    · exact hfull.2.symm.trans_le hfits
  have hpart : ¬ (o % blockSectorSize = 0 ∧ (blockSectorSize : Int) ≤ size) := by
    rintro ⟨h0, hle⟩
    refine hfull ⟨by rw [hofs, h0]; rfl, ?_⟩
    have hroom : (blockSectorSize : Int) ≤ inodeLength i - o :=
      Int.le_sub_left_of_add_le ((Int.add_le_add_left hle o).trans hlen)
    rw [hofs, h0, Int.natCast_zero, Int.sub_zero] at hmin
    rw [← hmin]
    exact (min_eq_right ((min_le_right _ _).trans hle)).trans (min_eq_right hroom)
  rw [if_neg hfull, if_neg Bool.false_ne_true, wp_bind]
  show (if s₁.env.mallocs s₁.clock.mallocs = true then _ else _ : Kernel Int).wp _ _ _
  have hbounce : BounceRefused s.env s.clock.mallocs o ↔
      s.env.mallocs s₁.clock.mallocs = false := by
    rcases hclock with ⟨hlt, hn⟩ | ⟨hge, hm, hn⟩
    · rw [BounceRefused, if_pos hlt, hn]
    · rw [BounceRefused, if_neg (Nat.not_lt.mpr hge), hm, hn]
      exact and_iff_right rfl
  rw [hlooks.env]
  cases hm : s.env.mallocs s₁.clock.mallocs with
  | true =>
    rw [if_pos rfl]
    refine hrest (.bind fun _ => .bind fun _ => hloop _) fun hb => ?_
    rw [hbounce.mp hb.2] at hm
    cases hm
  | false =>
    rw [if_neg Bool.false_ne_true, wp_pure]
    exact ⟨fun _ => ⟨hpart, hbounce.mpr hm⟩, fun _ => rfl⟩

end Pintos.Filesys

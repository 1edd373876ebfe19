import Pintos.Properties.Sectors

/-!
# Clients of the file system

`AtRest` is what holds between two calls: the file system is in order, and every handle is one of a
client. A client may close the last handle to a removed inode, which gives back its sectors.
`Serves cs x cs'` is a triple about whole calls, as `Owns` is about their parts.
-/

namespace Pintos.Filesys

open Pintos.Logic Pintos.Logic.Exec Pintos.Lib

attribute [local irreducible] Exec.wp

variable {s s' : Fs} {a : Addr} {i : Inode} {k : Nat} {f : File} {cs cs' ts ts' : List Addr}
  {ls : List Nat}

/-! ## Releasing an inode -/

/-- The slot of a direct block. -/
theorem isSlot_direct {j : Nat} (hj : j < 123) : IsSlot (j, []) := by
  have h : IsSlot (leafSlot j) := isSlot_leafSlot (by omega)
  rwa [leafSlot, if_pos hj] at h

theorem OpenInode.direct_ne_zero {hs : List Addr} (h : OpenInode hs s a i) {j : Nat}
    (hn : bytesToSectors (diskLength i.data) ≤ 123) (hj : j < bytesToSectors (diskLength i.data)) :
    ptr s.view i.data (j, []) ≠ 0 := by
  have hwhole := h.whole
  rw [bytesToSectors_eq hwhole.length_nonneg hwhole.length_le] at hn hj
  have hcov := hwhole.covered j (by omega)
  rwa [slotOf, if_pos (by omega), leafSlot, if_pos (by omega)] at hcov

/-- What `inode_unreserve` does with index blocks is left out. -/
theorem inodeUnreserve_overrun {data : Block} (h0 : 0 ≤ diskLength data)
    (hn : ¬ bytesToSectors (diskLength data) ≤ directBlocksCount) :
    (inodeUnreserve data).wp Safe (fun _ t => t.history.Free sharingEvents → False) s := by
  rw [inodeUnreserve, if_neg (Int.not_lt.mpr h0)]
  refine wp_recordIf_bind (by decide) (fun _ _ l => ?_) fun hno => ?_
  · have q := l.toQuiet
    exact q.bind (unreserveEntries_steps q (fun _ _ => freeMapRelease_steps q _) _ _ _ _ _)
      fun _ => q.bind (unreserveLevel_steps q _ _ _) fun _ =>
        q.bind (unreserveLevel_steps q _ _ _) fun _ => q.pure _
  · exact absurd (Nat.not_le.mp hn) (of_decide_eq_false hno)

/-- The header of an inode without a handle is released, and with it the direct blocks. -/
theorem Orderly.releaseInode {hs : List Addr} (hi : OpenInode hs s a i) (h : Orderly f cs ls ts s')
    (hd : Drops s s') (hclosed : ∀ j ∈ s'.openInodes, j.sector ≠ i.sector) :
    (do
      freeMapRelease i.sector
      let _ ← inodeUnreserve i.data
      return ()).wp Safe
      (fun _ t => t.history.Free sharingEvents → ∃ ls', Orderly f cs ls' ts t) s' := by
  have hk : s'.Taken i.sector := hd.taken _ (hi.separate.taken hi.live)
  have hlive : s'.Live i.sector := hd.live_iff.mpr hi.live
  rw [wp_bind]
  refine wp_mono (freeMapRelease_spec h.separate.freeMap h.file hk) (fun e he _ => ?_)
    fun _ s₁ hr => ?_
  · rw [he.1]
    decide
  have hsite : ∀ p, IsSite s' p → p ≠ (i.sector, none) → site s' p ≠ i.sector := fun p hp hne he =>
    hne (h.separate.owned.inj p (i.sector, none) hp hlive (he ▸ hk.2.2) he)
  have h₁ := h.released hk hr hsite hclosed
  by_cases hn : bytesToSectors (diskLength i.data) ≤ directBlocksCount
  · rw [inodeUnreserve_eq hi.whole.length_nonneg hn, bind_discard]
    simp only [directBlocksCount] at hn
    have hmem : ∀ j ∈ directs i.data (bytesToSectors (diskLength i.data)),
        ∃ r < bytesToSectors (diskLength i.data), ptr s.view i.data (r, []) = j := by
      intro j hj
      obtain ⟨r, hr, rfl⟩ := List.mem_map.mp hj
      exact ⟨r, by simpa using List.mem_range'_1.mp hr, rfl⟩
    have hnodup : (directs i.data (bytesToSectors (diskLength i.data))).Nodup := by
      refine List.Nodup.map_on (fun r hr r' hr' he => ?_) List.nodup_range'
      have hr : r < bytesToSectors (diskLength i.data) := by simpa using List.mem_range'_1.mp hr
      have hr' : r' < bytesToSectors (diskLength i.data) := by simpa using List.mem_range'_1.mp hr'
      exact congrArg Prod.fst (hi.slots.inj (r, []) (r', []) (isSlot_direct (by omega))
        (isSlot_direct (by omega)) (hi.direct_ne_zero hn hr) he)
    refine wp_mono (h₁.releaseAll _ hnodup fun j hj => ?_) (fun e he _ => he) fun _ t ht _ =>
      ⟨_, ht⟩
    obtain ⟨r, hr', rfl⟩ := hmem j hj
    have hslot := isSlot_direct (show r < 123 by omega)
    have h0 := hi.direct_ne_zero hn hr'
    have hsiteOf : site s (i.sector, some (r, [])) = ptr s.view i.data (r, []) := by
      show ptr s.view (s.header i.sector) _ = _
      rw [hi.header]
    -- the sector was one of the inode's, so it is of no other
    have hapart : ∀ p, IsSite s p → site s p = ptr s.view i.data (r, []) →
        p = (i.sector, some (r, [])) := fun p hp he =>
      hi.separate.owned.inj p (i.sector, some (r, [])) hp ⟨hi.live, hslot⟩ (he ▸ h0)
        (he.trans hsiteOf.symm)
    have hne : ptr s.view i.data (r, []) ≠ i.sector := hi.ptr_ne hslot h0
    have htaken := hd.taken _ (hi.slots.ok _ hslot h0)
    refine ⟨⟨(hr.used _).mpr ⟨htaken.1, hne⟩, fun hm => htaken.2.1 (hr.ofFreeMap.mp hm),
      htaken.2.2⟩, fun p hp he => ?_⟩
    obtain ⟨hps, hpne, -, hsame⟩ := h.separate.site_released hr hsite hp
    rcases hd.site hi.separate (hd.isSite.mp hps) with hsame' | hzero
    · exact hpne (congrArg Prod.fst
        (hapart p (hd.isSite.mp hps) (hsame'.symm.trans (hsame.symm.trans he))))
    · exact h0 (he.symm.trans (hsame.trans hzero))
  · rw [wp_bind]
    refine wp_mono (inodeUnreserve_overrun hi.whole.length_nonneg hn) (fun _ he => he)
      fun _ t ht => (wp_pure _).mpr fun hf => (ht hf).elim

/-! ## Calls -/

theorem Orderly.regroup (h : Orderly f cs ls ts s) (hp : (ts ++ cs).Perm (ts' ++ cs'))
    (hsub : cs ⊆ cs') : Orderly f cs' ls ts' s where
  separate := h.separate
  counted := h.counted.perm (hp.cons _)
  file := h.file
  live := h.live
  sector b hb := h.sector b (hp.mem_iff.mpr hb)
  removed j hj hr := hsub (h.removed j hj hr)

/-- The file system is in order, and clients have the handles `cs`. -/
def AtRest (f : File) (cs : List Addr) (s : Fs) : Prop := ∃ ls, Orderly f cs ls [] s

theorem AtRest.perm (h : AtRest f cs s) (hp : cs.Perm cs') : AtRest f cs' s :=
  h.imp fun _ h => h.regroup hp hp.subset

theorem AtRest.looks (h : AtRest f cs s) (hl : Looks s s') : AtRest f cs s' :=
  h.imp fun _ h => h.looks hl

/-- A call starts when clients have the handles `cs`. When it returns `a` they have `cs' a`, unless
one of the events has happened. -/
def Serves {α : Type} (f : File) (cs : List Addr) (x : Kernel α) (cs' : α → List Addr) : Prop :=
  ∀ s, (s.history.Free sharingEvents → AtRest f cs s) →
    x.wp Safe (fun a s' => s'.history.Free sharingEvents → AtRest f (cs' a) s') s

section

variable {α β : Type}

theorem Serves.bind {x : Kernel α} {g : α → Kernel β} {cs₁ : α → List Addr} {cs' : β → List Addr}
    (hx : Serves f cs x cs₁) (hg : ∀ a, Serves f (cs₁ a) (g a) cs') :
    Serves f cs (x >>= g) cs' := by
  intro s h
  rw [wp_bind]
  exact wp_mono (hx s h) (fun _ h => h) fun a s' h' => hg a s' h'

theorem Serves.pure (a : α) {cs' : α → List Addr} (h : cs' a = cs) :
    Serves f cs (Pure.pure a) cs' := by
  intro s hs
  rw [wp_pure, h]
  exact hs

theorem Serves.ite {c : Prop} [Decidable c] {x y : Kernel α} {cs' : α → List Addr}
    (hx : Serves f cs x cs') (hy : Serves f cs y cs') :
    Serves f cs (if c then x else y) cs' := by
  split
  · exact hx
  · exact hy

theorem Serves.perm {cs₁ : List Addr} {x : Kernel α} {cs' : α → List Addr}
    (h : Serves f cs₁ x cs') (hp : cs.Perm cs₁) : Serves f cs x cs' := fun s hs =>
  h s fun hf => (hs hf).perm hp

/-- It is enough to look at states in order before any of the events. -/
theorem Serves.of_free {x : Kernel α} {cs' : α → List Addr}
    (hx : ∀ (R : Fs → Fs → Prop) (F : Fs → Stop → Prop), Loud R F → Steps R F x)
    (h : ∀ s ls, s.history.Free sharingEvents → Orderly f cs ls [] s →
      x.wp Safe (fun a s' => s'.history.Free sharingEvents → AtRest f (cs' a) s') s) :
    Serves f cs x cs' := by
  intro s hs
  by_cases hf : s.history.Free sharingEvents
  · obtain ⟨ls, ho⟩ := hs hf
    exact h s ls hf ho
  · exact wp_unfree hx hf

/-- The handles that a part of a call leaves open go to its client. -/
theorem Owns.serves {x : Kernel α} {ts' : α → List Addr}
    (hx : ∀ (R : Fs → Fs → Prop) (F : Fs → Stop → Prop), Loud R F → Steps R F x)
    (h : ∀ ls, Owns f cs ls [] x ts') : Serves f cs x fun a => ts' a ++ cs :=
  Serves.of_free hx fun s ls _ ho => wp_mono (h ls s fun _ => ho) (fun _ he => he)
    fun _ _ h' hf => ⟨ls, (h' hf).regroup (.refl _) (List.subset_append_right _ _)⟩

end

/-- A client closes one of its handles. -/
theorem inodeClose_serves (a : Addr) : Serves f (a :: cs) (inodeClose (some a)) fun _ => cs := by
  refine Serves.of_free (fun _ _ l => inodeClose_steps l _) fun s ls _ h => ?_
  obtain ⟨i, hi⟩ := h.openInode (a := a) List.mem_cons_self
  obtain ⟨hmem, haddr⟩ := inode?_some hi.inode
  have hmap : f.inode ≠ a := h.not_map List.mem_cons_self
  have hcnt : i.openCnt = cs.count a + 1 := by
    rw [h.counted.count i hmem, haddr, List.count_cons_of_ne hmap, List.nil_append,
      List.count_cons_self]
    rfl
  have hd : derefClose a s = .ok (i, s) := by
    unfold derefClose
    rw [hi.inode]
  unfold inodeClose
  rw [wp_bind]
  refine wp_of_run hd ?_
  rw [wp_bind, modifyInode, wp_modify]
  by_cases hlast : i.openCnt - 1 = 0
  · have hnot : a ∉ cs := by
      rw [← List.count_eq_zero]
      omega
    rw [if_pos hlast, wp_bind, wp_modify]
    obtain ⟨hclosed, hdrops⟩ := h.closed [] cs List.mem_cons_self hnot
      (fun b hb hne => (List.mem_cons.mp hb).resolve_left hne) (.refl _)
    cases hr : i.removed with
    | false =>
      rw [if_neg Bool.false_ne_true, wp_pure]
      exact fun _ => ⟨ls, hclosed⟩
    | true =>
      rw [if_pos rfl]
      refine hclosed.releaseInode hi hdrops fun j hj he => ?_
      obtain ⟨hj, hne⟩ := mem_withClosed.mp hj
      have hij := List.inj_on_of_nodup_map h.counted.sectors hj hmem he
      exact hne (hij ▸ haddr)
  · rw [if_neg hlast, wp_pure]
    have hin : a ∈ cs := by
      rw [← List.count_pos_iff]
      omega
    have hcounted := (h.counted.perm (List.Perm.swap _ _ _)).close (List.mem_cons_of_mem _ hin)
    refine fun _ => ⟨ls, h.mapInode List.mem_cons_self (fun _ => ⟨rfl, rfl, rfl⟩) hcounted
      (fun b hb => List.mem_cons_of_mem _ hb) fun j hj hr => ?_⟩
    have hj' : j.addr ∈ a :: cs := h.removed j hj (by split at hr <;> exact hr)
    exact (List.mem_cons.mp hj').elim (fun he => he ▸ hin) id

/-- A client marks an inode for removal. -/
theorem inodeRemove_serves (ha : a ∈ cs) : Serves f cs (inodeRemove a) fun _ => cs := by
  refine Serves.of_free (fun _ _ l => inodeRemove_steps l _) fun s ls _ h => ?_
  obtain ⟨i, hi⟩ := h.openInode (a := a) ha
  unfold inodeRemove
  rw [wp_bind]
  refine wp_deref hi.inode ?_
  rw [modifyInode, wp_modify]
  refine fun _ => ⟨ls, h.mapInode ha (fun _ => ⟨rfl, rfl, rfl⟩)
    (h.counted.mapInode a fun _ => ⟨rfl, rfl, rfl⟩) (fun b hb => hb) fun j hj hr => ?_⟩
  by_cases hja : j.addr = a
  · exact hja ▸ ha
  · rw [if_neg hja] at hr
    exact h.removed j hj hr

/-! ## Files and directories -/

theorem inodeClose_owns' (r : Option Addr) :
    Owns f cs ls (handle r ++ ts) (inodeClose r) fun _ => ts := by
  cases r with
  | none => exact Owns.pure () rfl
  | some a => exact inodeClose_owns a

theorem dirOpen_owns (r : Option Addr) :
    Owns f cs ls (handle r ++ ts) (dirOpen r) fun d => handle (d.map (·.inode)) ++ ts := by
  refine Owns.bind (Owns.of_reading fun _ _ q _ => malloc_steps q) fun memory => ?_
  split
  · exact Owns.pure _ rfl
  · exact Owns.bind (inodeClose_owns' _) fun _ => Owns.pure _ rfl

theorem dirClose_owns (d : Option Dir) :
    Owns f cs ls (handle (d.map (·.inode)) ++ ts) (dirClose d) fun _ => ts := by
  cases d with
  | none => exact Owns.pure () rfl
  | some d => exact inodeClose_owns d.inode

theorem dirOpenRoot_owns :
    Owns f cs ls ts dirOpenRoot fun d => handle (d.map (·.inode)) ++ ts :=
  Owns.bind (inodeOpen_owns _) fun r => dirOpen_owns r

theorem dirLookup_owns {d : Dir} (hd : d.inode ∈ ts ++ cs) (name : CString) :
    Owns f cs ls ts (dirLookup d name) fun r => handle r ++ ts := by
  refine Owns.ite ?_ (Owns.ite ?_ ?_)
  · exact Owns.bind (inodeReopen_owns hd) fun a => Owns.pure _ rfl
  · exact Owns.bind (Owns.of_reading fun _ _ q _ => uninitialised_steps q) fun _ =>
      Owns.bind (Owns.of_reading fun _ _ q d => readEntry_steps q (d _) _ _) fun _ => inodeOpen_owns _
  · refine Owns.bind (Owns.of_reading fun _ _ q d => lookup_steps q (d _) _) fun r => ?_
    cases r with
    | none => exact Owns.pure _ rfl
    | some e => exact inodeOpen_owns _

/-- Handles of a call may be listed in any order. -/
theorem Owns.perm {α : Type} {ts₁ : List Addr} {x : Kernel α} {ts' : α → List Addr}
    (h : Owns f cs ls ts₁ x ts') (hp : ts.Perm ts₁) : Owns f cs ls ts x ts' := fun s hs =>
  h s fun hf => (hs hf).regroup (hp.append_right _) (List.Subset.refl _)

theorem Orderly.events (h : Orderly f cs ls ts s) (events : List Event) :
    Orderly f cs ls ts { s with history.events := events } := by
  have hkept : MapFileKept s { s with history.events := events } :=
    ⟨rfl, rfl, rfl, fun _ _ _ _ => rfl⟩
  have hf := h.separate.freeMap.mapFileKept hkept h.separate.freeMap.header
    fun _ => h.separate.freeMap.ofFreeMap_used
  exact h.sameShape ⟨rfl, rfl, rfl, rfl⟩ (h.separate.changes (changes_none hf rfl
    (fun _ h => h) (fun _ _ => rfl) (fun _ => rfl) rfl))

theorem recordIf_owns (c : Fs → Bool) (event : Event) :
    Owns f cs ls ts (recordIf c event) fun _ => ts := by
  intro s hs
  refine wp_of_run rfl fun hf => (hs (hf.of_le ?_)).events _
  unfold History.Le
  dsimp only
  split
  · exact List.subset_cons_self _ _
  · exact List.Subset.refl _

theorem walk_owns (tokens : List CString) : ∀ d : Dir,
    Owns f cs ls (d.inode :: ts) (walk tokens d) fun d => handle (d.map (·.inode)) ++ ts := by
  induction tokens with
  | nil => exact fun _ => Owns.bind (recordIf_owns _ _) fun _ => Owns.pure _ rfl
  | cons token rest ih =>
    intro d
    refine Owns.bind (recordIf_owns _ _) fun _ =>
      Owns.bind (dirLookup_owns List.mem_cons_self _) fun r => ?_
    cases r with
    | none => exact Owns.bind (dirClose_owns (some d)) fun _ => Owns.pure _ rfl
    | some inode =>
      refine Owns.bind (dirOpen_owns (some inode)) fun next => ?_
      cases next with
      | none => exact Owns.bind (dirClose_owns (some d)) fun _ => Owns.pure _ rfl
      | some next =>
        refine Owns.bind ((dirClose_owns (some d)).perm ?_) fun _ => ih next
        exact List.Perm.swap _ _ _

/-- The current directory of the running thread is a client's. -/
def HasCwd (cs : List Addr) (s : Fs) : Prop := ∀ d, s.cwd = some d → d.inode ∈ cs

theorem HasCwd.stored (h : HasCwd cs s) (hs : Stored s s') : HasCwd cs s' := by
  have hcwd : s'.cwd = s.cwd := by rw [hs.rest]; rfl
  exact fun d hd => h d (hcwd ▸ hd)

/-- A path is looked up from a directory that has a handle. -/
theorem startDir_wp (hs : s.history.Free sharingEvents → Orderly f cs ls ts s)
    (hcwd : HasCwd cs s) (path : CString) :
    (startDir path).wp Safe (fun d s' => s'.history.Free sharingEvents →
      Orderly f cs ls (handle (d.map (·.inode)) ++ ts) s') s := by
  refine (wp_ite _ _).mpr ⟨fun _ => dirOpenRoot_owns s hs, fun _ => ?_⟩
  rw [wp_bind, wp_gets]
  cases hd : s.cwd with
  | none => exact dirOpenRoot_owns s hs
  | some cwd =>
    exact Owns.bind (inodeReopen_owns (List.mem_append_right _ (hcwd cwd hd)))
      (fun a => dirOpen_owns (some a)) s hs

theorem dirOpenPath_wp (hs : s.history.Free sharingEvents → Orderly f cs ls ts s)
    (hcwd : HasCwd cs s) (path : CString) :
    (dirOpenPath path).wp Safe (fun d s' => s'.history.Free sharingEvents →
      Orderly f cs ls (handle (d.map (·.inode)) ++ ts) s') s := by
  unfold dirOpenPath
  rw [wp_bind]
  refine wp_mallocUnchecked (fun e he _ => ?_) fun s₁ h₁ => ?_
  · rw [he.1]
    decide
  rw [wp_bind]
  have hs₁ : s₁.history.Free sharingEvents → Orderly f cs ls ts s₁ := fun hf =>
    (hs (h₁.history ▸ hf)).looks h₁
  refine wp_mono (startDir_wp hs₁ (hcwd.stored h₁.toStored) path) (fun _ he => he)
    fun d s₂ h₂ => ?_
  cases d with
  | none => exact Owns.fail (by split <;> decide) s₂ h₂
  | some curr =>
    refine Owns.bind (walk_owns _ curr) (fun r => ?_) s₂ h₂
    cases r with
    | none => exact Owns.pure _ rfl
    | some curr =>
      refine Owns.bind (Owns.of_reading fun _ _ q d => deref_steps q (d _)) fun i =>
        Owns.ite ?_ (Owns.pure _ rfl)
      exact Owns.bind (dirClose_owns (some curr)) fun _ => Owns.pure _ rfl

theorem dirAddParent_owns {d : Dir} (k : Nat) (e : DirEntry) :
    Owns f cs ls ts (dirAddParent d k e) fun _ => ts := by
  refine Owns.bind (inodeOpen_owns k) fun r => Owns.bind (dirOpen_owns r) fun child => ?_
  cases child with
  | none => exact Owns.pure _ rfl
  | some child =>
    exact Owns.bind (Owns.of_reading fun _ _ q d => deref_steps q (d _)) fun _ =>
      Owns.bind (writeEntry_owns List.mem_cons_self _ _) fun _ =>
        Owns.bind (dirClose_owns (some child)) fun _ => Owns.pure _ rfl

theorem dirAdd_owns {d : Dir} (hd : d.inode ∈ ts ++ cs) (name : CString) (k : Nat)
    (dirFlag : Bool) : Owns f cs ls ts (dirAdd d name k dirFlag) fun _ => ts := by
  refine Owns.ite (Owns.pure _ rfl)
    (Owns.bind (Owns.of_reading fun _ _ q d => lookup_steps q (d _) _) fun r => ?_)
  cases r with
  | some r => exact Owns.pure _ rfl
  | none =>
    refine Owns.bind (Owns.of_reading fun _ _ q _ => uninitialised_steps q) fun e =>
      Owns.bind (Owns.ite (dirAddParent_owns _ _) (Owns.pure _ rfl)) fun r => ?_
    cases r with
    | none => exact Owns.pure _ rfl
    | some e =>
      exact Owns.bind (Owns.of_reading fun _ _ q d => scanDir_steps q (d _) _ _ _) fun _ =>
        writeEntry_owns hd _ _

/-! ## Removing -/

theorem Serves.of_reading {α : Type} {x : Kernel α}
    (hx : ∀ (R : Fs → Fs → Prop) (F : Fs → Stop → Prop), Reading R F → (∀ a, Derefs F a) →
      Steps R F x) : Serves f cs x fun _ => cs :=
  Owns.serves (fun R F l => hx R F l.toReading l.derefs) fun _ => Owns.of_reading hx

/-- After one of the events nothing is said of a call. -/
theorem Serves.of_event {α : Type} {event : Event} (he : event ∈ sharingEvents)
    {g : Unit → Kernel α}
    (hg : ∀ (R : Fs → Fs → Prop) (F : Fs → Stop → Prop), Loud R F → Steps R F (g ()))
    {cs' : α → List Addr} : Serves f cs (record event >>= g) cs' := by
  intro s _
  rw [wp_bind]
  exact wp_of_run rfl (wp_unfree hg fun hf => hf event he List.mem_cons_self)

theorem dirRemove_serves {d : Dir} (hd : d.inode ∈ cs) (name : CString) :
    Serves f cs (dirRemove d name) fun _ => cs := by
  refine Serves.bind (Serves.of_reading fun _ _ q d => lookup_steps q (d _) _) fun r => ?_
  cases r with
  | none => exact Serves.pure _ rfl
  | some r =>
    refine Serves.bind (Owns.serves (fun _ _ l => inodeOpen_steps l _) fun _ => inodeOpen_owns _)
      fun inode => ?_
    cases inode with
    | none => exact Serves.pure _ rfl
    | some inode =>
      have hd' : d.inode ∈ [] ++ inode :: cs := List.mem_cons_of_mem _ hd
      refine Serves.bind (Serves.of_reading fun _ _ q d => deref_steps q (d _)) fun i =>
        Serves.bind (show Serves f (inode :: cs) _ fun _ => inode :: cs from
          Serves.ite ?_ (Serves.pure _ rfl)) fun removable => ?_
      · refine Serves.of_event (by decide) fun _ _ l => l.bind (dirOpen_steps l _) fun t => ?_
        cases t with
        | none => exact l.fail (by decide)
        | some t =>
          exact l.bind (dirIsEmpty_steps l.toReading (l.derefs _)) fun _ =>
            l.bind (dirClose_steps l _) fun _ => l.pure _
      · refine Serves.bind (Serves.ite (Owns.serves
          (fun _ _ l => writeEntry_steps l.toQuiet (l.derefs _) _ _)
            fun _ => writeEntry_owns hd' _ _) (Serves.pure _ rfl)) fun success => ?_
        refine Serves.bind (Serves.ite (inodeRemove_serves List.mem_cons_self)
          (Serves.pure _ rfl)) fun _ => ?_
        exact Serves.bind (inodeClose_serves inode) fun _ => Serves.pure _ rfl

end Pintos.Filesys

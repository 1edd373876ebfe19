import Pintos.Properties.Formatting

/-!
# Isolation

Whatever processes ask for on a formatted device, no sector gets a second owner as long as no defect
of the code gives it one. So a write to a file is one to the bytes of this file alone, and they are
what is read later.
-/

namespace Pintos.Filesys

open Pintos.Logic Pintos.Logic.Exec Pintos.Lib

attribute [local irreducible] Exec.wp

variable {s s' : Fs} {a : Addr} {k : Nat} {files : List File} {file : File} {env : Env}
  {unused : Nat → Bool} {disk : Disk} {ops : List Operation}

/-! ## Runs -/

/-- A run of operations on a freshly formatted device. -/
def runOperations (env : Env) (unused : Nat → Bool) (disk : Disk) (ops : List Operation) :
    Except Stop (List File × Fs) :=
  (do filesysInit true unused; Operation.serveAll ops []) (boot env disk)

/-- No sector has two owners at the end, or the run stops before it releases a free one. -/
def EndsSeparate : Except Stop (List File × Fs) → Prop
  | .ok (_, s) => Separate s
  | .error e => e.fault ≠ .releaseFree

theorem run_keeps (h2 : 2 ≤ disk.size) (hle : disk.size ≤ 4294967295) (unused : Nat → Bool)
    (ops : List Operation) :
    Keeps (do filesysInit true unused; Operation.serveAll ops []) Serving (boot env disk) := by
  show (filesysInit true unused >>= fun _ => Operation.serveAll ops []).wp _ _ _
  rw [wp_bind]
  exact wp_mono (filesysInit_serving h2 hle unused) (fun _ he => he) fun _ _ h =>
    Operation.serveAll_keeps ops h

theorem run_serving (h2 : 2 ≤ disk.size) (hle : disk.size ≤ 4294967295)
    (hr : runOperations env unused disk ops = .ok (files, s))
    (hf : s.history.Free sharingEvents) : Serving files s :=
  wp_ok (run_keeps h2 hle unused ops) hr hf

theorem Serving.separate (h : Serving files s) : Separate s := by
  obtain ⟨f, leaked, ls, horder⟩ := h.rest
  exact horder.separate

/--
**No sector gets a second owner.**

In every run on a formatted device without one of the events, the headers, index blocks and data
of all inodes are in different sectors, which are in use and not of the free map's file, and every
byte of a file has a sector. No sector is released that is free.
-/
theorem sectors_apart (env : Env) (unused : Nat → Bool) (disk : Disk) (ops : List Operation)
    (h2 : 2 ≤ disk.size) (hle : disk.size ≤ 4294967295)
    (h : (outcomeHistory (runOperations env unused disk ops)).Free sharingEvents) :
    EndsSeparate (runOperations env unused disk ops) := by
  cases hr : runOperations env unused disk ops with
  | error e =>
    rw [hr] at h
    exact wp_error (run_keeps h2 hle unused ops) hr h
  | ok r =>
    obtain ⟨files, s⟩ := r
    rw [hr] at h
    exact (run_serving h2 hle hr h).separate

/-- A file is created and written to, and a directory beside it. -/
theorem sectors_apart_two_files :
    EndsSeparate (runOperations (Env.calm 1) (fun _ => false) (Disk.blank 32)
      [.create nameA 0 false, .open nameA, .write 0 (fun _ => 7) 600, .remove nameA,
        .create nameA 20 true, .close 0]) :=
  sectors_apart _ _ _ _ (by decide) (by decide) (by decide +kernel)

/-! ## Contents -/

/-- The length and the bytes of the inode in sector `k`. -/
def Fs.contents (s : Fs) (k : Nat) : Int × (Nat → UInt8) :=
  (diskLength (s.header k), byteAt s.view (s.header k))

/-- A change of one inode is none of the contents of another. -/
theorem Separate.contents_other (h : Separate s) (hc : Changes k s s') {j : Nat} (hj : s.Live j)
    (hne : j ≠ k) : s'.contents j = s.contents j := by
  have hview : s'.view j = s.view j := h.spared hc.spares (p := (j, none)) hj hne hj.2
  have hheader : s'.header j = s.header j := by
    rw [Fs.header, Fs.header, hc.memory j hne, hview]
  have hptr : ∀ x, IsSlot x → ptr s'.view (s.header j) x = ptr s.view (s.header j) x :=
    fun x hx => by
      have hsite := h.site_other hc (p := (j, some x)) ⟨hj, hx⟩ hne
      rwa [site, site, hheader] at hsite
  rw [Fs.contents, Fs.contents, hheader]
  refine congrArg _ (funext fun q => ?_)
  have hslot := slotOf_congr hptr (q / 512)
  unfold byteAt
  rw [hslot]
  split
  · rfl
  · next h0 =>
    unfold slotOf at h0 ⊢
    split at h0
    · next hlt =>
      have hsite : s'.view (site s (j, some (leafSlot (q / 512)))) = _ :=
        h.spared hc.spares (p := (j, some (leafSlot (q / 512)))) ⟨hj, isSlot_leafSlot hlt⟩ hne h0
      rw [if_pos hlt]
      exact congrArg (fun b : Block => b.byte (q % 512)) hsite
    · exact absurd rfl h0

theorem Extended.contents_other {hs : List Addr} {i : Inode} {length : Int} {ok : Bool}
    {data : Block} (h : OpenInode hs s a i) (he : Extended s a i length ok data s')
    (hlt : length < 2147483648) {j : Nat} (hj : s.Live j) (hne : j ≠ i.sector) :
    s'.contents j = s.contents j := by
  cases he with
  | failed hext hrest _ => exact h.separate.contents_other (h.extended hext hrest) hj hne
  | @done s₁ _ d hext hrest h0 hfits hcov hst hv =>
    have hc := h.extended hext hrest
    have hmid := h.mapped_data hext.toMapFileKept hc
    have hst' : Stored ((s₁.mapInode a fun i => { i with data := d }).mapInode a fun i =>
        { i with data := setDiskLength d length }) s' := (setData_setData ..).symm ▸ hst
    have hwords : ∀ r < 125, (setDiskLength d length).word r = d.word r := fun r hr =>
      word_setDiskLength _ _ (by omega)
    have hwhole := whole_setDiskLength h0 hlt hfits.2 hcov
    exact (hmid.separate.contents_other (hmid.headerWritten hst' hv hwords hwhole)
      (hc.live_iff.mpr hj) hne).trans (h.separate.contents_other hc hj hne)

/-- A write changes the contents of no other inode. -/
theorem Written.contents_other {hs : List Addr} {i : Inode} {buffer : Nat → UInt8}
    {size r : Int} {o : Nat} {data : Block} (h : OpenInode hs s a i)
    (hw : Written s a i buffer size o r data s') {j : Nat} (hj : s.Live j)
    (hne : j ≠ i.sector) : s'.contents j = s.contents j := by
  cases hw with
  | denied _ => rfl
  | inside _ _ hst hpart => exact h.separate.contents_other (h.overwritten hst hpart.1) hj hne
  | failed _ _ he => exact he.contents_other h (wrap32_range _).2 hj hne
  | extended _ _ he hst hpart =>
    have hmid := he.openInode h (wrap32_range _).2
    have hlive := he.sameShape.live
    refine (hmid.separate.contents_other (hmid.overwritten hst hpart.1)
      ⟨hlive ▸ hj.1, hj.2⟩ hne).trans (he.contents_other h (wrap32_range _).2 hj hne)

/-! ## Writing to one file -/

/-- The `n` bytes of `buffer` have been written at `o` to the inode in sector `k`, and nothing to
any other. -/
structure WroteOnly (s s' : Fs) (k o n : Nat) (buffer : Nat → UInt8) : Prop where
  live : s'.history.live = s.history.live
  others : ∀ j, s.Live j → j ≠ k → s'.contents j = s.contents j
  bytes : ∀ q, (s'.contents k).2 q =
    if o ≤ q ∧ q < o + n then buffer (q - o) else (s.contents k).2 q
  inside : n ≠ 0 → o + n ≤ (s'.contents k).1

theorem Serving.openInode (h : Serving files s) (hfile : file ∈ files) :
    ∃ hs i, OpenInode hs s file.inode i := by
  obtain ⟨f, leaked, ls, horder⟩ := h.rest
  have hmem : file.inode ∈ [] ++ (files.map (·.inode) ++ (s.cwds.map (·.2.inode) ++ leaked)) :=
    List.mem_append_right _ (List.mem_append_left _ (List.mem_map_of_mem hfile))
  obtain ⟨i, hi⟩ := horder.openInode hmem
  exact ⟨_, i, hi⟩

theorem Written.le_reach {i : Inode} {buffer : Nat → UInt8} {size r : Int} {o : Nat}
    {data : Block} (hw : Written s a i buffer size o r data s') :
    r ≤ reach size (diskLength data) o := by
  cases hw with
  | denied _ => exact Int.natCast_nonneg _
  | inside _ _ _ part => exact Int.ofNat_le.mpr part.2.1
  | failed _ _ _ => exact Int.natCast_nonneg _
  | extended _ _ _ _ part => exact Int.ofNat_le.mpr part.2.1

theorem Written.wroteOnly {hs : List Addr} {i : Inode} {buffer : Nat → UInt8} {size r : Int}
    {o : Nat} {data : Block} (h : OpenInode hs s a i)
    (hw : Written s a i buffer size o r data s') :
    ∃ n : Nat, r = n ∧ n ≤ size.toNat ∧ WroteOnly s s' i.sector o n buffer := by
  have hopen := hw.openInode h
  have hlive := hw.sameShape.live
  have hothers := fun j (hj : s.Live j) hne => hw.contents_other h hj hne
  obtain ⟨n, rfl, hbytes⟩ := (hw.file h.file).2
  have hheader : s'.header i.sector = data := hopen.header
  have hspliced : ∀ q, (s'.contents i.sector).2 q =
      if o ≤ q ∧ q < o + n then buffer (q - o) else (s.contents i.sector).2 q := fun q => by
    rw [Fs.contents, Fs.contents, hheader, h.header]
    exact hbytes q
  have hreach : n ≤ reach size (diskLength data) o := Int.ofNat_le.mp hw.le_reach
  refine ⟨n, rfl, ?_, hlive, hothers, hspliced, fun hn => ?_⟩
  · exact hreach.trans (Nat.min_le_left _ _)
  · rw [Fs.contents, hheader]
    rw [reach] at hreach
    show _ ≤ diskLength data
    omega

/-- **A write to an open file changes its own bytes, and no other file.** -/
theorem write_isolated (h2 : 2 ≤ disk.size) (hle : disk.size ≤ 4294967295)
    (hr : runOperations env unused disk ops = .ok (files, s)) (hfile : file ∈ files)
    {buffer : Nat → UInt8} {size r : Int} {file' : File}
    (hw : fileWrite file buffer size s = .ok ((r, file'), s'))
    (hf : s'.history.Free sharingEvents) :
    ∃ i, s.inode? file.inode = some i ∧ ∃ n : Nat, r = n ∧ n ≤ size.toNat ∧
      WroteOnly s s' i.sector file.pos.toNat n buffer := by
  have hevents : s.history.Le s'.history :=
    wp_ok (Q := fun _ t => s.history.Le t.history)
      (fileWrite_steps events_loud.toQuiet (events_loud.derefs _) buffer size s) hw
  have hserving := run_serving h2 hle hr (hf.of_le hevents)
  obtain ⟨o, ho⟩ := Int.eq_ofNat_of_zero_le (hserving.usable file hfile).position
  obtain ⟨hs, i, hi⟩ := hserving.openInode hfile
  refine ⟨i, hi.inode, ?_⟩
  have hspec : (fileWrite file buffer size).wp (Starved s.env) (fun r s' =>
      s'.history.Free sharingEvents → ∃ n : Nat, r.1 = n ∧ n ≤ size.toNat ∧
        WroteOnly s s' i.sector file.pos.toNat n buffer) s := by
    rw [fileWrite, ho, wp_bind]
    refine wp_mono (inodeWriteAt_written hi.file buffer size o) (fun _ he => he) fun r s' h' =>
      (wp_pure _).mpr fun hf' => ?_
    obtain ⟨data, hw⟩ := h'.resolve_right fun hrefused =>
      not_free_of_mem (by decide) hrefused.2.2 hf'
    exact hw.wroteOnly hi
  exact wp_ok hspec hw hf

/-- A file of 600 bytes is open, at a position in its middle. -/
def middleOfFile : Except Stop (List File × Fs) :=
  runOperations (Env.calm 1) (fun _ => false) (Disk.blank 32)
    [.create nameA 0 false, .open nameA, .write 0 (fun _ => 7) 600, .seek 0 510]

/-- What `x` returns for the first open file after a run without one of the events. -/
def afterRun {α : Type} (r : Except Stop (List File × Fs)) (x : File → Kernel α) : Option α :=
  r.toOption.bind fun q => q.1.head?.bind fun file => (x file q.2).toOption.bind fun p =>
    if p.2.history.Free sharingEvents then some p.1 else none

theorem of_afterRun {α : Type} {r : Except Stop (List File × Fs)} {x : File → Kernel α}
    (h : (afterRun r x).isSome = true) : ∃ files s file p s', r = .ok (files, s) ∧ file ∈ files ∧
      x file s = .ok (p, s') ∧ s'.history.Free sharingEvents := by
  obtain ⟨p, hp⟩ := Option.isSome_iff_exists.mp h
  obtain ⟨q, hq, hp⟩ := Option.bind_eq_some_iff.mp hp
  obtain ⟨file, hfile, hp⟩ := Option.bind_eq_some_iff.mp hp
  obtain ⟨p, hx, hp⟩ := Option.bind_eq_some_iff.mp hp
  split at hp
  · next hf =>
    exact ⟨q.1, q.2, file, p.1, p.2, toOption_some hq, List.mem_of_head? hfile, toOption_some hx, hf⟩
  · cases hp

/-- Five bytes are written into the middle of a file. -/
theorem write_isolated_middle : ∃ files s file, ∃ r : Int, ∃ file' s' i, ∃ n : Nat, r = n ∧
    middleOfFile = .ok (files, s) ∧ file ∈ files ∧
    fileWrite file (fun _ => 9) 5 s = .ok ((r, file'), s') ∧
    WroteOnly s s' (i : Inode).sector file.pos.toNat n fun _ => 9 := by
  obtain ⟨files, s, file, p, s', hr, hfile, hw, hf⟩ :=
    of_afterRun (r := middleOfFile) (x := fun file => fileWrite file (fun _ => 9) 5)
      (by decide +kernel)
  obtain ⟨i, -, n, hn, -, honly⟩ := write_isolated (by decide) (by decide) hr hfile hw hf
  exact ⟨files, s, file, p.1, p.2, s', i, n, hn, hr, hfile, hw, honly⟩

theorem Written.env_eq {i : Inode} {buffer : Nat → UInt8} {size r : Int} {o : Nat} {data : Block}
    (hw : Written s a i buffer size o r data s') : s'.env = s.env := by
  cases hw with
  | denied _ => rfl
  | inside _ _ hst _ => exact hst.env
  | failed _ _ he => exact he.env
  | extended _ _ he hst _ => exact hst.env.trans he.env

/-- What was written is read. -/
theorem WroteOnly.read {hs : List Addr} {i : Inode} {o n : Nat} {buffer : Nat → UInt8}
    (h : OpenInode hs s' a i) (hw : WroteOnly s s' i.sector o n buffer) :
    (inodeReadAt a n o).wp (OutOfMemory s'.env) (fun bytes _ => ∃ m ≤ n,
      bytes = (List.range m).map buffer ∧ (s'.env.MemOk → m = n)) s' := by
  have hbytes := hw.bytes
  have hinside := hw.inside
  rw [Fs.contents, h.header] at hbytes hinside
  have hreach : reach n (diskLength i.data) o = n := by
    rw [reach, Int.toNat_natCast]
    by_cases hn : n = 0
    · rw [hn, Nat.zero_min]
    · have hle : ((o + n : Nat) : Int) ≤ diskLength i.data := by
        exact_mod_cast hinside hn
      omega
  refine wp_mono (inodeReadAt_spec h.inode h.mapped n o) (fun _ he => he) fun bytes _ hr => ?_
  obtain ⟨-, m, rfl, hle, hm⟩ := hr
  rw [hreach] at hle hm
  refine ⟨m, hle, List.map_congr_left fun j hj => ?_, hm⟩
  have hj : j < m := List.mem_range.mp hj
  refine (hbytes (o + j)).trans ?_
  rw [if_pos ⟨by omega, by omega⟩, Nat.add_sub_cancel_left]

/-- **What is written to an open file is read back from where it was written.** -/
theorem write_reads_back (h2 : 2 ≤ disk.size) (hle : disk.size ≤ 4294967295)
    (hr : runOperations env unused disk ops = .ok (files, s)) (hfile : file ∈ files)
    {buffer : Nat → UInt8} {size r : Int} {bytes : List UInt8}
    (hw : (do
      let (r, file') ← fileWrite file buffer size
      let file' ← fileSeek file' file.pos
      let (bytes, _) ← fileRead file' r
      return (r, bytes) : Kernel (Int × List UInt8)) s = .ok ((r, bytes), s'))
    (hf : s'.history.Free sharingEvents) :
    ∃ n m : Nat, r = n ∧ m ≤ n ∧ bytes = (List.range m).map buffer ∧ (s.env.MemOk → m = n) := by
  have hevents : s.history.Le s'.history :=
    wp_ok (Q := fun _ t => s.history.Le t.history) ((events_loud.bind
      (fileWrite_steps events_loud.toQuiet (events_loud.derefs _) _ _) fun r => events_loud.bind
        (fileSeek_steps events_loud.toReading _ _) fun _ => events_loud.bind
          (fileRead_steps events_loud.toReading (events_loud.derefs _) _) fun _ => events_loud.pure _) s) hw
  have hserving := run_serving h2 hle hr (hf.of_le hevents)
  have hpos := (hserving.usable file hfile).position
  obtain ⟨o, ho⟩ := Int.eq_ofNat_of_zero_le hpos
  obtain ⟨hs, i, hi⟩ := hserving.openInode hfile
  refine wp_ok (E := Safe) (Q := fun (p : Int × List UInt8) t => t.history.Free sharingEvents →
    ∃ n m : Nat, p.1 = n ∧ m ≤ n ∧ p.2 = (List.range m).map buffer ∧ (s.env.MemOk → m = n)) ?_ hw hf
  rw [wp_bind, fileWrite, ho, wp_bind]
  refine wp_mono (inodeWriteAt_written hi.file buffer size o) (fun _ he => he.safe)
    fun r s₁ h₁ => (wp_pure _).mpr ?_
  dsimp only
  rw [wp_bind, fileSeek, if_pos (ho ▸ hpos), wp_pure, wp_bind, fileRead, wp_bind]
  by_cases hf₁ : s₁.history.Free sharingEvents
  swap
  · have hlater := wp_unfree (P := fun _ _ => False) (x := inodeReadAt file.inode r o)
      (fun _ _ l => inodeReadAt_steps l.toReading (l.derefs _) _ _) hf₁
    exact wp_mono hlater (fun _ he => he) fun bytes s₂ h₂ => (wp_pure _).mpr <|
      (wp_pure _).mpr fun hf₂ => (h₂ hf₂).elim
  obtain ⟨data, hwritten⟩ := h₁.resolve_right fun hrefused =>
    not_free_of_mem (by decide) hrefused.2.2 hf₁
  obtain ⟨n, rfl, -, honly⟩ := hwritten.wroteOnly hi
  have hread := honly.read (hwritten.openInode hi)
  rw [hwritten.env_eq] at hread
  refine wp_mono hread (fun e he _ => ?_) fun bytes s₂ h₂ => (wp_pure _).mpr <|
    (wp_pure _).mpr fun _ => ?_
  · rw [he.1]
    decide
  · obtain ⟨m, hm, hbytes, hall⟩ := h₂
    exact ⟨n, m, rfl, hm, hbytes, hall⟩

theorem write_reads_back_middle : ∃ files s file, ∃ r : Int, ∃ bytes s', ∃ n m : Nat, r = n ∧
    m ≤ n ∧ bytes = (List.range m).map (fun _ => (9 : UInt8)) ∧
    middleOfFile = .ok (files, s) ∧ file ∈ files ∧
    (do
      let (r, file') ← fileWrite file (fun _ => 9) 5
      let file' ← fileSeek file' file.pos
      let (bytes, _) ← fileRead file' r
      return (r, bytes) : Kernel (Int × List UInt8)) s = .ok ((r, bytes), s') := by
  obtain ⟨files, s, file, p, s', hr, hfile, hw, hf⟩ :=
    of_afterRun (r := middleOfFile) (x := fun file => do
      let (r, file') ← fileWrite file (fun _ => 9) 5
      let file' ← fileSeek file' file.pos
      let (bytes, _) ← fileRead file' r
      return (r, bytes)) (by decide +kernel)
  obtain ⟨n, m, hn, hm, hbytes, -⟩ := write_reads_back (by decide) (by decide) hr hfile hw hf
  exact ⟨files, s, file, p.1, p.2, s', n, m, hn, hm, hbytes, hr, hfile, hw⟩

end Pintos.Filesys

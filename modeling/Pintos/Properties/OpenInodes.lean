import Pintos.Userprog.Inodes
import Mathlib.Data.List.Nodup

/-!
# Handles point to inodes in memory

`inodeWork_keeps`: whatever one thread does to the open inodes, as long as no handle is used that
is not open, an inode with an open handle is not freed.
-/

namespace Pintos.Userprog

open Pintos.Logic

/-- The inodes as they should be between two calls. -/
structure Inodes.Sound (s : Inodes) : Prop where
  counts : ∀ inode, s.openCnt inode = (s.handles inode).length
  alive : ∀ inode, s.handles inode ≠ [] → s.freed inode = false
  listed : ∀ inode ∈ s.openInodes, s.freed inode = false
  nodup : s.openInodes.Nodup
  below : ∀ inode, s.handles inode ≠ [] ∨ inode ∈ s.openInodes ∨ s.freed inode = true →
    inode < s.next

/-- What `inode_open` and `inode_close` know of the inode they work on. -/
def InodeVars.Fits (s : Inodes) : InodeVars → Prop
  | .none => True
  | .search _ e => ∀ inode, e = some inode → inode ∈ s.openInodes
  | .found inode => inode ∈ s.openInodes
  | .pushed _ inode => inode ∈ s.openInodes ∧ s.handles inode = []
  | .last inode => s.handles inode = [] ∧ inode < s.next
  | .removed inode => s.handles inode = [] ∧ inode < s.next ∧ inode ∉ s.openInodes

/-- What every access keeps. -/
def Handled (v : InodeVars) (s : Inodes) : Prop := s.misused = false → s.Sound ∧ v.Fits s

variable {s : Inodes} {inode handle : Nat}

namespace Inodes

theorem sound_start : Inodes.start.Sound := by
  constructor
  · intro inode
    by_cases h : inode = 0 <;> simp [start, h]
  · exact fun _ _ => rfl
  · exact fun _ _ => rfl
  · exact List.nodup_singleton 0
  · intro inode h
    by_cases hz : inode = 0 <;> simp_all [start]

theorem mem_listNext {e e' : Nat} (h : s.listNext e = some e') : e' ∈ s.openInodes :=
  (List.dropWhile_sublist _).mem (List.mem_of_mem_tail (List.mem_of_mem_head? h))

theorem Sound.addHandle (h : s.Sound) (hfreed : s.freed inode = false) (hlt : inode < s.next)
    {openCnt : Int} (hcnt : openCnt = (s.handles inode).length + 1) :
    (s.addHandle inode openCnt handle).Sound := by
  constructor
  · intro i
    rcases eq_or_ne i inode with rfl | hi
    · simp [Inodes.addHandle, hcnt]
    · simpa [Inodes.addHandle, hi] using h.counts i
  · intro i hne
    rcases eq_or_ne i inode with rfl | hi
    · exact hfreed
    · exact h.alive i (by simpa [Inodes.addHandle, hi] using hne)
  · exact h.listed
  · exact h.nodup
  · intro i hin
    rcases eq_or_ne i inode with rfl | hi
    · exact hlt
    · exact h.below i (by simpa [Inodes.addHandle, hi] using hin)

theorem Sound.dropHandle (h : s.Sound) (hmem : handle ∈ s.handles inode) :
    (s.dropHandle inode handle).Sound := by
  have hne : s.handles inode ≠ [] := List.ne_nil_of_mem hmem
  have hlen := List.length_erase_of_mem hmem
  have hpos := List.length_pos_of_mem hmem
  constructor
  · intro i
    rcases eq_or_ne i inode with rfl | hi
    · have hcnt := h.counts i
      simp only [Inodes.dropHandle, Function.update_self]
      omega
    · simpa [Inodes.dropHandle, hi] using h.counts i
  · intro i hi
    rcases eq_or_ne i inode with rfl | hne'
    · exact h.alive i hne
    · exact h.alive i (by simpa [Inodes.dropHandle, hne'] using hi)
  · exact h.listed
  · exact h.nodup
  · intro i hin
    rcases eq_or_ne i inode with rfl | hne'
    · exact h.below i (.inl hne)
    · exact h.below i (by simpa [Inodes.dropHandle, hne'] using hin)

/-- The handle that was the last is gone, and the count is 0. -/
theorem Sound.handles_dropHandle (h : s.Sound) (hmem : handle ∈ s.handles inode)
    (hlast : s.openCnt inode - 1 = 0) : (s.dropHandle inode handle).handles inode = [] := by
  have hlen := List.length_erase_of_mem hmem
  have hcnt := h.counts inode
  simp only [Inodes.dropHandle, Function.update_self]
  exact List.length_eq_zero_iff.mp (by omega)

theorem Sound.push (h : s.Sound) :
    Sound { s with openInodes := s.next :: s.openInodes, next := s.next + 1 } := by
  have hfresh : ∀ inode, s.handles inode ≠ [] ∨ inode ∈ s.openInodes ∨ s.freed inode = true →
      inode ≠ s.next := fun inode hin => Nat.ne_of_lt (h.below inode hin)
  refine ⟨h.counts, h.alive, fun inode hin => ?_, ?_, fun inode hin => ?_⟩
  · rcases List.mem_cons.mp hin with rfl | hin
    · by_contra hfreed
      exact hfresh s.next (.inr (.inr (by simpa using hfreed))) rfl
    · exact h.listed inode hin
  · exact List.nodup_cons.mpr ⟨fun hin => hfresh s.next (.inr (.inl hin)) rfl, h.nodup⟩
  · rcases hin with hin | hin | hin
    · exact Nat.lt_succ_of_lt (h.below inode (.inl hin))
    · rcases List.mem_cons.mp hin with rfl | hin
      · exact Nat.lt_succ_self _
      · exact Nat.lt_succ_of_lt (h.below inode (.inr (.inl hin)))
    · exact Nat.lt_succ_of_lt (h.below inode (.inr (.inr hin)))

theorem Sound.remove (h : s.Sound) (inode : Nat) :
    Sound { s with openInodes := s.openInodes.erase inode } :=
  ⟨h.counts, h.alive, fun i hi => h.listed i (List.mem_of_mem_erase hi), h.nodup.erase inode,
    fun i hi => h.below i (hi.imp_right (Or.imp_left List.mem_of_mem_erase))⟩

theorem Sound.free (h : s.Sound) (hnil : s.handles inode = []) (hlt : inode < s.next)
    (hout : inode ∉ s.openInodes) :
    Sound { s with freed := Function.update s.freed inode true } := by
  refine ⟨h.counts, fun i hi => ?_, fun i hi => ?_, h.nodup, fun i hi => ?_⟩
  · have hne : i ≠ inode := fun he => hi (he ▸ hnil)
    simpa [hne] using h.alive i hi
  · have hne : i ≠ inode := fun he => hout (he ▸ hi)
    simpa [hne] using h.listed i hi
  · rcases eq_or_ne i inode with rfl | hne
    · exact hlt
    · exact h.below i (by simpa [hne] using hi)

theorem Sound.use (h : s.Sound) (inode handle : Nat) : (s.use inode handle).Sound :=
  ⟨h.counts, h.alive, h.listed, h.nodup, h.below⟩

/-- Where no handle is misused, the one used is open. -/
theorem use_misused (h : (s.use inode handle).misused = false) :
    s.misused = false ∧ handle ∈ s.handles inode := by
  simpa [use] using h

end Inodes

/-- One access of a thread that is alone. -/
theorem InodeWork.run_handled {b : InodeWork} {v v' : InodeVars} {s' : Inodes} {again : Bool}
    (hb : b.run v s = some (v', s', again)) (h : Handled v s) : Handled v' s' := by
  intro hused
  cases b with
  | begin sector =>
    cases hb
    exact ⟨(h hused).1, fun inode he => List.mem_of_mem_head? he⟩
  | turn =>
    cases v with
    | search sector e =>
      cases e with
      | none =>
        cases hb
        exact h hused
      | some e =>
        simp only [InodeWork.run] at hb
        split_ifs at hb <;> cases hb
        · exact ⟨(h hused).1, (h hused).2 e rfl⟩
        · exact ⟨(h hused).1, fun inode he => Inodes.mem_listNext he⟩
    | _ => cases hb
  | reopenFound handle =>
    cases v with
    | found inode =>
      cases hb
      obtain ⟨hs, hlisted⟩ := h hused
      exact ⟨hs.addHandle (hs.listed inode hlisted) (hs.below inode (.inr (.inl hlisted)))
        (by rw [hs.counts]), trivial⟩
    | _ => cases hb
  | push memory =>
    cases v with
    | search sector e =>
      cases memory <;> cases e <;> cases hb
      · exact ⟨(h hused).1, trivial⟩
      · obtain ⟨hs, -⟩ := h hused
        refine ⟨hs.push, List.mem_cons_self, ?_⟩
        by_contra hne
        exact Nat.ne_of_lt (hs.below _ (.inl hne)) rfl
    | _ => cases memory <;> cases hb
  | init handle =>
    cases v with
    | pushed sector inode =>
      cases hb
      obtain ⟨hs, hlisted, hnil⟩ := h hused
      have hs' : Inodes.Sound { s with sector := Function.update s.sector inode sector } :=
        ⟨hs.counts, hs.alive, hs.listed, hs.nodup, hs.below⟩
      exact ⟨hs'.addHandle (hs.listed inode hlisted) (hs.below inode (.inr (.inl hlisted)))
        (by simp [hnil]), trivial⟩
    | _ => cases hb
  | reopen handle handle' =>
    obtain ⟨inode, -, hb⟩ := Option.map_eq_some_iff.mp hb
    cases hb
    obtain ⟨hnot, hmem⟩ := Inodes.use_misused hused
    obtain ⟨hs, -⟩ := h hnot
    have hne : s.handles inode ≠ [] := List.ne_nil_of_mem hmem
    exact ⟨(hs.use inode handle).addHandle (hs.alive inode hne) (hs.below inode (.inl hne))
      (congrArg (· + 1) (hs.counts inode)), trivial⟩
  | drop handle last =>
    obtain ⟨inode, -, hb⟩ := Option.bind_eq_some_iff.mp hb
    split_ifs at hb with hlast hzero
    · -- the last handle: the inode is in the list still, and has to be taken off and freed
      cases hb
      obtain ⟨hnot, hmem⟩ := Inodes.use_misused hused
      obtain ⟨hs, -⟩ := h hnot
      have hs' := hs.use inode handle
      exact ⟨hs'.dropHandle hmem, hs'.handles_dropHandle hmem (hlast.mpr hzero),
        hs.below inode (.inl (List.ne_nil_of_mem hmem))⟩
    · cases hb
      obtain ⟨hnot, hmem⟩ := Inodes.use_misused hused
      exact ⟨((h hnot).1.use inode handle).dropHandle hmem, trivial⟩
  | remove =>
    cases v with
    | last inode =>
      cases hb
      obtain ⟨hs, hnil, hlt⟩ := h hused
      exact ⟨hs.remove inode, hnil, hlt, hs.nodup.not_mem_erase⟩
    | _ => cases hb
  | free =>
    cases v with
    | removed inode =>
      cases hb
      obtain ⟨hs, hnil, hlt, hout⟩ := h hused
      exact ⟨hs.free hnil hlt hout, trivial⟩
    | _ => cases hb

theorem inodeWork_keeps : inodeRegion.Keeps Handled where
  start := fun _ => ⟨Inodes.sound_start, trivial⟩
  fresh := fun _ _ h hused => ⟨(h hused).1, trivial⟩
  run := fun _ _ _ _ _ _ hb h => InodeWork.run_handled hb h

end Pintos.Userprog

import Pintos.Filesys.Cache
import Pintos.Logic.Lists
import Mathlib.Tactic.Common

/-!
# The buffer cache is transparent

`Represents c f` relates a cache and the device behind it to the plain sector map `f`
that its clients see. Every operation of `filesys/cache.c` keeps the relation;
only `buffer_cache_write` changes the map, and only at its own sector.
-/

namespace Pintos.Filesys

open Pintos.Logic

/-! ## The relation -/

/--
The cache `c` stands for the sector map `f`.

A slot in use holds what `f` says of its sector, and unless it is dirty so does the device.
What no slot holds is on the device. No sector is in two slots.
-/
structure Represents (c : BufferCache) (f : Nat → Block) : Prop where
  count : 0 < c.caches.length
  slot : ∀ (i : Nat) (s : CacheSlot), c.caches[i]? = some s → s.free = false →
    s.diskSector < c.fsDevice.size ∧ s.buffer = f s.diskSector
  clean : ∀ (i : Nat) (s : CacheSlot), c.caches[i]? = some s → s.free = false →
    s.dirty = false → c.fsDevice.sectors s.diskSector = f s.diskSector
  uncached : ∀ k, (∀ (i : Nat) (s : CacheSlot), c.caches[i]? = some s → s.free = false →
    s.diskSector ≠ k) → c.fsDevice.sectors k = f k
  distinct : ∀ (i j : Nat) (s t : CacheSlot), c.caches[i]? = some s → c.caches[j]? = some t →
    s.free = false → t.free = false → s.diskSector = t.diskSector → i = j

/-- The sector map a cache stands for. -/
def BufferCache.contents (c : BufferCache) (k : Nat) : Block :=
  match (bufferCacheLookup c k).bind (c.caches[·]?) with
  | some s => s.buffer
  | none => c.fsDevice.sectors k

variable {c c' : BufferCache} {f : Nat → Block}

theorem bufferCacheLookup_some {k i : Nat} (h : bufferCacheLookup c k = some i) :
    ∃ s, c.caches[i]? = some s ∧ s.free = false ∧ s.diskSector = k := by
  obtain ⟨hi, hp, -⟩ := List.findIdx?_eq_some_iff_getElem.mp h
  refine ⟨c.caches[i], List.getElem?_eq_getElem hi, ?_⟩
  simpa using hp

theorem bufferCacheLookup_none {k : Nat} (h : bufferCacheLookup c k = none) (i : Nat)
    (s : CacheSlot) (hs : c.caches[i]? = some s) (hf : s.free = false) : s.diskSector ≠ k := by
  have := List.findIdx?_eq_none_iff.mp h s (List.mem_of_getElem? hs)
  simpa [hf] using this

theorem Represents.contents_eq (h : Represents c f) : c.contents = f := by
  funext k
  unfold BufferCache.contents
  cases hl : bufferCacheLookup c k with
  | none => exact h.uncached k (bufferCacheLookup_none hl)
  | some i =>
    obtain ⟨s, hs, hf, hk⟩ := bufferCacheLookup_some hl
    simp only [Option.bind_some, hs]
    rw [(h.slot i s hs hf).2, hk]

/-- A cache just initialised stands for the device. -/
theorem represents_init {caches : List CacheSlot} (h : 0 < caches.length) (disk : Disk) :
    Represents (bufferCacheInit caches disk) disk.sectors := by
  have hfree : ∀ (i : Nat) (s : CacheSlot),
      (bufferCacheInit caches disk).caches[i]? = some s → s.free = false → False := by
    intro i s hs hf
    simp only [bufferCacheInit, List.getElem?_map, Option.map_eq_some_iff] at hs
    obtain ⟨t, -, rfl⟩ := hs
    simp at hf
  constructor
  · simpa [bufferCacheInit] using h
  · exact fun i s hs hf => (hfree i s hs hf).elim
  · exact fun i s hs hf => (hfree i s hs hf).elim
  · exact fun _ _ => rfl
  · exact fun i _ s _ hs _ hf => (hfree i s hs hf).elim

/-! ## Changing one slot -/

/--
Slot `i` becomes `s'`, the device becomes `d` and the map becomes `g`.

The other slots in use must not notice: their sectors have the same contents in the map
and on the device, and none of them is the new sector of slot `i`.
-/
theorem Represents.set (h : Represents c f) {i : Nat} {s s' : CacheSlot}
    (hs : c.caches[i]? = some s) {d g : Nat → Block}
    (hother : ∀ (j : Nat) (t : CacheSlot), j ≠ i → c.caches[j]? = some t → t.free = false →
      g t.diskSector = f t.diskSector ∧ d t.diskSector = c.fsDevice.sectors t.diskSector ∧
        (s'.free = false → t.diskSector ≠ s'.diskSector))
    (hslot : s'.free = false → s'.diskSector < c.fsDevice.size ∧
      s'.buffer = g s'.diskSector ∧ (s'.dirty = false → d s'.diskSector = g s'.diskSector))
    (hun : ∀ k, (∀ (j : Nat) (t : CacheSlot), j ≠ i → c.caches[j]? = some t →
      t.free = false → t.diskSector ≠ k) → (s'.free = false → s'.diskSector ≠ k) → d k = g k) :
    Represents ⟨c.caches.set i s', ⟨c.fsDevice.size, d⟩⟩ g := by
  have hlt : i < c.caches.length := (List.getElem?_eq_some_iff.mp hs).1
  have hself : (c.caches.set i s')[i]? = some s' := by
    rw [List.getElem?_set, if_pos rfl, if_pos hlt]
  have hne : ∀ j, j ≠ i → (c.caches.set i s')[j]? = c.caches[j]? := by
    intro j hj
    rw [List.getElem?_set, if_neg (Ne.symm hj)]
  have hget : ∀ (j : Nat) (t : CacheSlot), (c.caches.set i s')[j]? = some t →
      (j = i ∧ t = s') ∨ (j ≠ i ∧ c.caches[j]? = some t) := by
    intro j t ht
    by_cases hj : j = i
    · subst hj
      rw [hself] at ht
      exact Or.inl ⟨rfl, (Option.some.inj ht).symm⟩
    · rw [hne j hj] at ht
      exact Or.inr ⟨hj, ht⟩
  constructor
  · simpa using h.count
  · intro j t ht hf
    rcases hget j t ht with ⟨-, rfl⟩ | ⟨hj, ht⟩
    · exact ⟨(hslot hf).1, (hslot hf).2.1⟩
    · exact ⟨(h.slot j t ht hf).1, by rw [(hother j t hj ht hf).1]; exact (h.slot j t ht hf).2⟩
  · intro j t ht hf hd
    rcases hget j t ht with ⟨-, rfl⟩ | ⟨hj, ht⟩
    · exact (hslot hf).2.2 hd
    · obtain ⟨hg, hd', -⟩ := hother j t hj ht hf
      exact hd'.trans ((h.clean j t ht hf hd).trans hg.symm)
  · intro k hk
    refine hun k (fun j t hj ht hf => hk j t ?_ hf) fun hf => hk i s' hself hf
    rw [hne j hj]; exact ht
  · intro j l t u ht hu htf huf he
    rcases hget j t ht with ⟨hj, ht'⟩ | ⟨hj, ht'⟩ <;>
      rcases hget l u hu with ⟨hl, hu'⟩ | ⟨hl, hu'⟩
    · exact hj.trans hl.symm
    · subst ht'
      exact absurd he.symm ((hother l u hl hu' huf).2.2 htf)
    · subst hu'
      exact absurd he ((hother j t hj ht' htf).2.2 huf)
    · exact h.distinct j l t u ht' hu' htf huf he

/-- A slot in use may change everything but its sector, if the map follows its buffer. -/
theorem Represents.setKeep (h : Represents c f) {i : Nat} {s : CacheSlot} (s' : CacheSlot)
    (hs : c.caches[i]? = some s) (hf : s.free = false) (hf' : s'.free = false)
    (hsec : s'.diskSector = s.diskSector)
    (hd : s'.dirty = false → s.dirty = false ∧ s'.buffer = s.buffer) :
    Represents ⟨c.caches.set i s', c.fsDevice⟩
      (Function.update f s.diskSector s'.buffer) := by
  have hne : ∀ (j : Nat) (t : CacheSlot), j ≠ i → c.caches[j]? = some t → t.free = false →
      t.diskSector ≠ s.diskSector :=
    fun j t hj ht htf he => hj (h.distinct j i t s ht hs htf hf he)
  refine h.set hs (d := c.fsDevice.sectors) ?_ ?_ ?_
  · intro j t hj ht htf
    have := hne j t hj ht htf
    exact ⟨Function.update_of_ne this _ _, rfl, fun _ => hsec ▸ this⟩
  · intro _
    rw [hsec, Function.update_self]
    refine ⟨(h.slot i s hs hf).1, rfl, fun hd' => ?_⟩
    obtain ⟨hd₀, hb⟩ := hd hd'
    rw [h.clean i s hs hf hd₀, hb, (h.slot i s hs hf).2]
  · intro k hk hk'
    have hks : k ≠ s.diskSector := fun he => hk' hf' (hsec.trans he.symm)
    rw [Function.update_of_ne hks]
    refine h.uncached k fun j t ht htf => ?_
    by_cases hj : j = i
    · subst hj
      rw [hs] at ht
      cases ht
      exact Ne.symm hks
    · exact hk j t hj ht htf

/-! ## Writing back -/

/-- `buffer_cache_flush` leaves the slot clean and everything else as it was. -/
theorem bufferCacheFlush_represents (h : Represents c f) {i : Nat} {s : CacheSlot}
    (hs : c.caches[i]? = some s) :
    ∃ c', bufferCacheFlush c i = .ok c' ∧ Represents c' f ∧
      c'.fsDevice.size = c.fsDevice.size ∧
      c'.caches = c.caches.set i { s with dirty := s.free && s.dirty } := by
  obtain ⟨free, dirty, timeStamp, diskSector, buffer⟩ := s
  unfold bufferCacheFlush
  rw [hs]
  cases free with
  | true => exact ⟨c, rfl, h, rfl, (set_getElem?_self hs).symm⟩
  | false =>
    cases dirty with
    | false => exact ⟨c, rfl, h, rfl, (set_getElem?_self hs).symm⟩
    | true =>
      obtain ⟨hlt, hb⟩ := h.slot i _ hs rfl
      simp only [blockWrite_ok hlt]
      refine ⟨_, rfl, ?_, rfl, rfl⟩
      refine h.set hs ?_ ?_ ?_
      · intro j t hj ht htf
        have hne : t.diskSector ≠ diskSector :=
          fun he => hj (h.distinct j i t _ ht hs htf rfl he)
        exact ⟨rfl, Function.update_of_ne hne _ _, fun _ => hne⟩
      · exact fun _ => ⟨hlt, hb, fun _ => by rw [Function.update_self]; exact hb⟩
      · intro k hk hk'
        rw [Function.update_of_ne (Ne.symm (hk' rfl))]
        refine h.uncached k fun j t ht htf => ?_
        by_cases hj : j = i
        · subst hj
          rw [hs] at ht
          cases ht
          exact hk' rfl
        · exact hk j t hj ht htf

/-- `buffer_cache_close` leaves on the device what the cache stood for. -/
theorem bufferCacheCloseFrom_represents (n : Nat) : ∀ (i : Nat) (c : BufferCache),
    Represents c f → i + n = c.caches.length →
      (∀ (j : Nat) (s : CacheSlot), j < i → c.caches[j]? = some s → s.free = false →
        s.dirty = false) →
      ∃ c', bufferCacheCloseFrom n i c = .ok c' ∧ Represents c' f ∧
        c'.fsDevice.size = c.fsDevice.size ∧
        ∀ (j : Nat) (s : CacheSlot), c'.caches[j]? = some s → s.free = false →
          s.dirty = false := by
  induction n with
  | zero =>
    intro i c h hi hc
    refine ⟨c, rfl, h, rfl, fun j s hs hf => hc j s ?_ hs hf⟩
    have := (List.getElem?_eq_some_iff.mp hs).1
    omega
  | succ n ih =>
    intro i c h hi hc
    obtain ⟨s, hs⟩ : ∃ s, c.caches[i]? = some s :=
      ⟨c.caches[i], List.getElem?_eq_getElem (by omega)⟩
    rw [bufferCacheCloseFrom, hs]
    simp only [Option.map_some, Option.getD_some]
    -- every slot before `i + 1` is clean once slot `i` has been looked at
    have hnext : ∀ (c₁ : BufferCache) (t : CacheSlot), c₁.caches = c.caches.set i t →
        (t.free = false → t.dirty = false) →
        ∀ (j : Nat) (u : CacheSlot), j < i + 1 → c₁.caches[j]? = some u → u.free = false →
          u.dirty = false := by
      intro c₁ t he ht j u hj hu huf
      rw [he, List.getElem?_set] at hu
      split at hu
      · split at hu
        · cases hu; exact ht huf
        · simp at hu
      · exact hc j u (by omega) hu huf
    by_cases hf : s.free = true
    · rw [if_pos hf]
      refine ih (i + 1) c h (by omega) (hnext c s (set_getElem?_self hs).symm ?_)
      simp [hf]
    · rw [if_neg hf]
      obtain ⟨c₁, hflush, h₁, hsize, hset⟩ := bufferCacheFlush_represents h hs
      have hlen : c₁.caches.length = c.caches.length := by rw [hset, List.length_set]
      obtain ⟨c', hclose, h', hsize', hclean⟩ :=
        ih (i + 1) c₁ h₁ (by omega) (hnext c₁ _ hset (by simpa using fun _ hf' => absurd hf' hf))
      refine ⟨c', ?_, h', hsize'.trans hsize, hclean⟩
      rw [hflush]
      exact hclose

theorem bufferCacheClose_represents (h : Represents c f) :
    ∃ c', bufferCacheClose c = .ok c' ∧ Represents c' f ∧
      c'.fsDevice.size = c.fsDevice.size ∧ c'.fsDevice.sectors = f := by
  obtain ⟨c', hclose, h', hsize, hclean⟩ :=
    bufferCacheCloseFrom_represents c.caches.length 0 c h (by omega) (by omega)
  refine ⟨c', hclose, h', hsize, funext fun k => ?_⟩
  by_cases hk : ∀ (i : Nat) (s : CacheSlot), c'.caches[i]? = some s → s.free = false →
      s.diskSector ≠ k
  · exact h'.uncached k hk
  · push Not at hk
    obtain ⟨i, s, hs, hf, rfl⟩ := hk
    exact h'.clean i s hs hf (hclean i s hs hf)

/-! ## Eviction -/

theorem lruIdx_lt : ∀ (l : List CacheSlot) (i idx : Nat) (time : Int), idx < i + l.length →
    lruIdx l i idx time < i + l.length
  | [], _, _, _, h => h
  | s :: rest, i, idx, time, h => by
    rw [lruIdx, List.length_cons, ← Nat.add_assoc, Nat.add_right_comm] at *
    split
    · exact lruIdx_lt rest (i + 1) i _ (by omega)
    · exact lruIdx_lt rest (i + 1) idx _ h

/-- `buffer_cache_evict` hands out a free slot, brings in no sector and loses nothing. -/
theorem bufferCacheEvict_represents (h : Represents c f) :
    ∃ i c' s, bufferCacheEvict c = .ok (i, c') ∧ Represents c' f ∧
      c'.fsDevice.size = c.fsDevice.size ∧ c'.caches[i]? = some s ∧ s.free = true ∧
      ∀ (j : Nat) (t : CacheSlot), c'.caches[j]? = some t → t.free = false →
        ∃ t₀, c.caches[j]? = some t₀ ∧ t₀.free = false ∧ t₀.diskSector = t.diskSector := by
  unfold bufferCacheEvict
  cases hfree : c.caches.findIdx? (·.free) with
  | some i =>
    obtain ⟨hi, hp, -⟩ := List.findIdx?_eq_some_iff_getElem.mp hfree
    exact ⟨i, c, _, rfl, h, rfl, List.getElem?_eq_getElem hi, hp,
      fun j t ht htf => ⟨t, ht, htf, rfl⟩⟩
  | none =>
    have hused : ∀ s ∈ c.caches, s.free = false := by
      simpa using List.findIdx?_eq_none_iff.mp hfree
    have hlt : lruIdx c.caches 0 0 int64Max < c.caches.length := by
      simpa using lruIdx_lt c.caches 0 0 int64Max (by simpa using h.count)
    simp only
    generalize lruIdx c.caches 0 0 int64Max = i at hlt
    obtain ⟨s, hs⟩ : ∃ s, c.caches[i]? = some s :=
      ⟨c.caches[i], List.getElem?_eq_getElem hlt⟩
    have hf := hused s (List.mem_of_getElem? hs)
    -- the victim has been written back, so freeing it loses nothing
    obtain ⟨c₁, hc₁, h₁, hsize, hset⟩ : ∃ c₁,
        (if (c.caches[i]?.map (·.dirty)).getD false then bufferCacheFlush c i else .ok c)
          = .ok c₁ ∧ Represents c₁ f ∧ c₁.fsDevice.size = c.fsDevice.size ∧
          c₁.caches = c.caches.set i { s with dirty := false } := by
      rw [hs]
      cases hd : s.dirty with
      | true =>
        obtain ⟨c₁, hflush, h₁, hsize, hset⟩ := bufferCacheFlush_represents h hs
        exact ⟨c₁, by simpa [hd] using hflush, h₁, hsize, by rw [hset, hf, Bool.false_and]⟩
      | false =>
        refine ⟨c, by simp [hd], h, rfl, ?_⟩
        rw [← hd]
        exact (set_getElem?_self hs).symm
    have ht : c₁.caches[i]? = some { s with dirty := false } := by
      rw [hset, List.getElem?_set, if_pos rfl, if_pos hlt]
    have hmod : (c₁.caches.modify i fun s => { s with free := true, dirty := false })
        = c.caches.set i { s with free := true, dirty := false } := by
      rw [modify_of_getElem? ht, hset, List.set_set]
    refine ⟨i, ⟨c.caches.set i { s with free := true, dirty := false }, c₁.fsDevice⟩,
      { s with free := true, dirty := false }, by rw [hc₁, ← hmod]; rfl, ?_, hsize, ?_, rfl, ?_⟩
    · rw [← hmod, modify_of_getElem? ht]
      refine h₁.set ht (d := c₁.fsDevice.sectors) ?_ (by simp) ?_
      · exact fun j u hj hu huf => ⟨rfl, rfl, by simp⟩
      · intro k hk _
        by_cases hkt : s.diskSector = k
        · subst hkt
          exact h₁.clean i { s with dirty := false } ht hf rfl
        · refine h₁.uncached k fun j u hu huf => ?_
          by_cases hj : j = i
          · subst hj
            rw [ht] at hu
            cases hu
            exact hkt
          · exact hk j u hj hu huf
    · rw [List.getElem?_set, if_pos rfl, if_pos hlt]
    · intro j t ht htf
      rw [List.getElem?_set] at ht
      split at ht
      · cases ht
        simp at htf
      · exact ⟨t, ht, htf, rfl⟩

/-! ## Reading and writing -/

/-- The slot of a sector of the device, filled if need be. -/
theorem bufferCacheFetch_represents (h : Represents c f) {sector : Nat}
    (hlt : sector < c.fsDevice.size) :
    ∃ i c' s, bufferCacheFetch c sector = .ok (i, c') ∧ Represents c' f ∧
      c'.fsDevice.size = c.fsDevice.size ∧ c'.caches[i]? = some s ∧ s.free = false ∧
      s.diskSector = sector := by
  unfold bufferCacheFetch
  cases hl : bufferCacheLookup c sector with
  | some i =>
    obtain ⟨s, hs, hf, hk⟩ := bufferCacheLookup_some hl
    exact ⟨i, c, s, rfl, h, rfl, hs, hf, hk⟩
  | none =>
    obtain ⟨i, c₁, s, hevict, h₁, hsize, hs, hfree, hold⟩ := bufferCacheEvict_represents h
    have hmiss : ∀ (j : Nat) (t : CacheSlot), c₁.caches[j]? = some t → t.free = false →
        t.diskSector ≠ sector := by
      intro j t ht htf
      obtain ⟨t₀, ht₀, hf₀, he⟩ := hold j t ht htf
      rw [← he]
      exact bufferCacheLookup_none hl j t₀ ht₀ hf₀
    have hdev : c₁.fsDevice.sectors sector = f sector := h₁.uncached sector hmiss
    let s' : CacheSlot :=
      { s with free := false, diskSector := sector, dirty := false,
               buffer := c₁.fsDevice.sectors sector }
    refine ⟨i, ⟨c₁.caches.set i s', c₁.fsDevice⟩, s', ?_, ?_, hsize, ?_, rfl, rfl⟩
    · simp only [hevict, bind, Except.bind, hs, Option.map_some, Option.getD_some, hfree,
        if_true, blockRead_ok (hsize ▸ hlt), modify_of_getElem? hs]
      rfl
    · refine h₁.set hs (d := c₁.fsDevice.sectors) ?_ ?_ ?_
      · exact fun j t hj ht htf => ⟨rfl, rfl, fun _ => hmiss j t ht htf⟩
      · exact fun _ => ⟨hsize ▸ hlt, hdev, fun _ => hdev⟩
      · intro k hk hk'
        refine h₁.uncached k fun j t ht htf => ?_
        by_cases hj : j = i
        · subst hj
          rw [hs] at ht
          cases ht
          rw [hfree] at htf
          cases htf
        · exact hk j t hj ht htf
    · rw [List.getElem?_set, if_pos rfl, if_pos (List.getElem?_eq_some_iff.mp hs).1]

/-- A sector past the end of the device is never cached, and asking for it panics. -/
theorem bufferCacheFetch_pastEnd (h : Represents c f) {sector : Nat}
    (hge : c.fsDevice.size ≤ sector) : bufferCacheFetch c sector = .error .pastEnd := by
  unfold bufferCacheFetch
  cases hl : bufferCacheLookup c sector with
  | some i =>
    obtain ⟨s, hs, hf, hk⟩ := bufferCacheLookup_some hl
    have := (h.slot i s hs hf).1
    omega
  | none =>
    obtain ⟨i, c₁, s, hevict, -, hsize, hs, hfree, -⟩ := bufferCacheEvict_represents h
    simp only [hevict, bind, Except.bind, hs, Option.map_some, Option.getD_some, hfree, if_true,
      blockRead, hsize, if_pos hge]

/-- **`buffer_cache_read` returns what the map says and keeps the map.** -/
theorem bufferCacheRead_represents (h : Represents c f) {sector : Nat}
    (hlt : sector < c.fsDevice.size) (now : Int) :
    ∃ c', bufferCacheRead c sector now = .ok (f sector, c') ∧ Represents c' f ∧
      c'.fsDevice.size = c.fsDevice.size := by
  obtain ⟨i, c₁, s, hfetch, h₁, hsize, hs, hf, rfl⟩ := bufferCacheFetch_represents h hlt
  have hb := (h₁.slot i s hs hf).2
  refine ⟨⟨c₁.caches.set i { s with timeStamp := now }, c₁.fsDevice⟩, ?_, ?_, hsize⟩
  · simp only [bufferCacheRead, hfetch, bind, Except.bind, modify_of_getElem? hs,
      List.getElem?_set, if_true, if_pos (List.getElem?_eq_some_iff.mp hs).1, Option.map_some,
      Option.getD_some, hb]
    rfl
  · have := h₁.setKeep { s with timeStamp := now } hs hf hf rfl fun hd => ⟨hd, rfl⟩
    rwa [show Function.update f s.diskSector s.buffer = f by
      rw [hb, Function.update_eq_self]] at this

/-- **`buffer_cache_write` changes the map at its sector only.** -/
theorem bufferCacheWrite_represents (h : Represents c f) {sector : Nat}
    (hlt : sector < c.fsDevice.size) (source : Block) (now : Int) :
    ∃ c', bufferCacheWrite c sector source now = .ok c' ∧
      Represents c' (Function.update f sector source) ∧
      c'.fsDevice.size = c.fsDevice.size := by
  obtain ⟨i, c₁, s, hfetch, h₁, hsize, hs, hf, rfl⟩ := bufferCacheFetch_represents h hlt
  refine ⟨⟨c₁.caches.set i { s with dirty := true, timeStamp := now, buffer := source },
    c₁.fsDevice⟩, ?_, ?_, hsize⟩
  · simp only [bufferCacheWrite, hfetch, bind, Except.bind, modify_of_getElem? hs]
    rfl
  · exact h₁.setKeep { s with dirty := true, timeStamp := now, buffer := source }
      hs hf hf rfl (by simp)

theorem bufferCacheRead_pastEnd (h : Represents c f) {sector : Nat}
    (hge : c.fsDevice.size ≤ sector) (now : Int) :
    bufferCacheRead c sector now = .error .pastEnd := by
  rw [bufferCacheRead, bufferCacheFetch_pastEnd h hge]
  rfl

theorem bufferCacheWrite_pastEnd (h : Represents c f) {sector : Nat}
    (hge : c.fsDevice.size ≤ sector) (source : Block) (now : Int) :
    bufferCacheWrite c sector source now = .error .pastEnd := by
  rw [bufferCacheWrite, bufferCacheFetch_pastEnd h hge]
  rfl

/-! ## Runs -/

/-- A request to the cache, with the tick at which it is made. -/
inductive CacheRequest where
  | read (sector : Nat) (tick : Int)
  | write (sector : Nat) (source : Block) (tick : Int)

/-- The sector a request is about. -/
def CacheRequest.sector : CacheRequest → Nat
  | .read k _ | .write k _ _ => k

/-- Serves requests one after the other. Returns what the reads returned. -/
def serve : List CacheRequest → BufferCache → Except Fault (List Block × BufferCache)
  | [], c => .ok ([], c)
  | .read k tick :: rest, c => do
    let (b, c) ← bufferCacheRead c k tick
    let (bs, c) ← serve rest c
    return (b :: bs, c)
  | .write k b tick :: rest, c => do
    let c ← bufferCacheWrite c k b tick
    serve rest c

/-- The sector map after the writes among the requests. -/
def afterWrites (f : Nat → Block) : List CacheRequest → Nat → Block
  | [] => f
  | .read _ _ :: rest => afterWrites f rest
  | .write k b _ :: rest => afterWrites (Function.update f k b) rest

/-- What the reads among the requests return from a plain sector map. -/
def plainReads (f : Nat → Block) : List CacheRequest → List Block
  | [] => []
  | .read k _ :: rest => f k :: plainReads f rest
  | .write k b _ :: rest => plainReads (Function.update f k b) rest

/-- The simulation: the cache serves requests as the map does, or a request panics. -/
theorem serve_represents (rs : List CacheRequest) : ∀ (c : BufferCache) (f : Nat → Block),
    Represents c f →
      (∃ c', serve rs c = .ok (plainReads f rs, c') ∧ Represents c' (afterWrites f rs) ∧
        c'.fsDevice.size = c.fsDevice.size ∧ ∀ r ∈ rs, r.sector < c.fsDevice.size) ∨
      (serve rs c = .error .pastEnd ∧ ∃ r ∈ rs, c.fsDevice.size ≤ r.sector) := by
  induction rs with
  | nil => exact fun c f h => Or.inl ⟨c, rfl, h, rfl, by simp⟩
  | cons r rest ih =>
    intro c f h
    cases r with
    | read k tick =>
      by_cases hlt : k < c.fsDevice.size
      · obtain ⟨c₁, hread, h₁, hsize⟩ := bufferCacheRead_represents h hlt tick
        rcases ih c₁ f h₁ with ⟨c', hs, h', hsize', hall⟩ | ⟨hs, r, hr, hge⟩
        · refine Or.inl ⟨c', ?_, h', hsize'.trans hsize, ?_⟩
          · simp only [serve, hread, hs, bind, Except.bind, plainReads]
            rfl
          · exact List.forall_mem_cons.mpr ⟨hlt, fun r hr => hsize ▸ hall r hr⟩
        · refine Or.inr ⟨?_, r, List.mem_cons_of_mem _ hr, hsize ▸ hge⟩
          simp only [serve, hread, hs, bind, Except.bind]
      · have hge : c.fsDevice.size ≤ k := Nat.not_lt.mp hlt
        refine Or.inr ⟨?_, _, List.mem_cons_self, hge⟩
        simp only [serve, bufferCacheRead_pastEnd h hge tick, bind, Except.bind]
    | write k b tick =>
      by_cases hlt : k < c.fsDevice.size
      · obtain ⟨c₁, hwrite, h₁, hsize⟩ := bufferCacheWrite_represents h hlt b tick
        rcases ih c₁ _ h₁ with ⟨c', hs, h', hsize', hall⟩ | ⟨hs, r, hr, hge⟩
        · refine Or.inl ⟨c', ?_, h', hsize'.trans hsize, ?_⟩
          · simp only [serve, hwrite, hs, bind, Except.bind, plainReads]
          · exact List.forall_mem_cons.mpr ⟨hlt, fun r hr => hsize ▸ hall r hr⟩
        · refine Or.inr ⟨?_, r, List.mem_cons_of_mem _ hr, hsize ▸ hge⟩
          simp only [serve, hwrite, hs, bind, Except.bind]
      · have hge : c.fsDevice.size ≤ k := Nat.not_lt.mp hlt
        refine Or.inr ⟨?_, _, List.mem_cons_self, hge⟩
        simp only [serve, bufferCacheWrite_pastEnd h hge b tick, bind, Except.bind]

/--
**The buffer cache is transparent.**

From a cache just initialised over any device, requests on any sectors at any ticks are
served as by a plain sector map, unless one of them lies past the end of the device, where
the kernel panics. In the state reached no two slots in use hold one sector, every clean
slot in use equals the device, evicting a slot leaves the map as it is, and closing the
cache leaves on the device exactly what was last written.
-/
theorem buffer_cache_transparent (disk : Disk) (rs : List CacheRequest) :
    match serve rs (bufferCacheInit staticCaches disk) with
    | .error e => e = .pastEnd ∧ ∃ r ∈ rs, disk.size ≤ r.sector
    | .ok (reads, c) =>
      (∀ r ∈ rs, r.sector < disk.size) ∧
      reads = plainReads disk.sectors rs ∧
      (∀ (i j : Nat) (s t : CacheSlot), c.caches[i]? = some s → c.caches[j]? = some t →
        s.free = false → t.free = false → s.diskSector = t.diskSector → i = j) ∧
      (∀ s ∈ c.caches, s.free = false → s.dirty = false →
        s.buffer = c.fsDevice.sectors s.diskSector) ∧
      (∃ i c' s, bufferCacheEvict c = .ok (i, c') ∧ c'.caches[i]? = some s ∧ s.free = true ∧
        c'.contents = c.contents) ∧
      c.contents = afterWrites disk.sectors rs ∧
      ∃ c', bufferCacheClose c = .ok c' ∧ c'.fsDevice.size = disk.size ∧
        c'.fsDevice.sectors = afterWrites disk.sectors rs := by
  have hinit : Represents (bufferCacheInit staticCaches disk) disk.sectors :=
    represents_init (by simp [staticCaches]) disk
  rcases serve_represents rs _ _ hinit with ⟨c, hs, h, hsize, hall⟩ | ⟨hs, hr⟩
  · rw [hs]
    refine ⟨hall, rfl, h.distinct, ?_, ?_, h.contents_eq, ?_⟩
    · intro s hs hf hd
      obtain ⟨i, hi⟩ := List.getElem?_of_mem hs
      rw [(h.slot i s hi hf).2, h.clean i s hi hf hd]
    · obtain ⟨i, c', s, hevict, h', -, hi, hf, -⟩ := bufferCacheEvict_represents h
      exact ⟨i, c', s, hevict, hi, hf, h'.contents_eq.trans h.contents_eq.symm⟩
    · obtain ⟨c', hclose, -, hsize', hdisk⟩ := bufferCacheClose_represents h
      exact ⟨c', hclose, hsize'.trans hsize, hdisk⟩
  · rw [hs]
    exact ⟨rfl, hr⟩

end Pintos.Filesys

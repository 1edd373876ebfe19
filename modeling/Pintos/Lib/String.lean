import Mathlib.Data.List.TakeWhile
import Mathlib.Tactic.Common

/-!
# Strings

`strtok_r` of `lib/string.c`, on a buffer that it changes, with the places of what it finds.
Repeated calls give the tokens of the string one after the other.
-/

namespace Pintos.Lib

/-! ## Tokens -/

section

variable {α : Type} {p : α → Bool} {a : α} {list t : List α}

/-- The pieces of a list between elements with `p`, but for the empty ones. -/
def tokens (p : α → Bool) (list : List α) : List (List α) := (list.splitOnP p).filter (· ≠ [])

theorem tokens_cons (ha : p a = true) : tokens p (a :: list) = tokens p list := by
  have h := List.splitOnP_append_cons (p := p) [] list ha
  rw [List.nil_append] at h
  rw [tokens, h]
  rfl

theorem tokens_append (ht : t ≠ []) (hp : ∀ c ∈ t, p c = false) (ha : p a = true) :
    tokens p (t ++ a :: list) = t :: tokens p list := by
  rw [tokens, List.splitOnP_append_cons t list ha, List.splitOnP_eq_singleton hp,
    List.filter_append, List.filter_cons, if_pos (by simpa using ht)]
  rfl

theorem tokens_single (ht : t ≠ []) (hp : ∀ c ∈ t, p c = false) : tokens p t = [t] := by
  rw [tokens, List.splitOnP_eq_singleton hp, List.filter_cons, if_pos (by simpa using ht)]
  rfl

theorem tokens_ne_nil (ha : p a = false) : tokens p (a :: list) ≠ [] := by
  obtain ⟨u, us, hu⟩ := List.exists_cons_of_ne_nil (List.splitOnP_ne_nil p list)
  rw [tokens, List.splitOnP_cons_eq_if_modifyHead, if_neg (by simp [ha]), hu,
    List.modifyHead_cons, List.filter_cons, if_pos (by simp)]
  exact List.cons_ne_nil _ _

/-- Elements with `p` in front do not count. -/
theorem tokens_dropWhile (p : α → Bool) (list : List α) :
    tokens p (list.dropWhile p) = tokens p list := by
  induction list with
  | nil => rfl
  | cons a list ih =>
    rw [List.dropWhile_cons]
    split
    · next ha => rw [ih, tokens_cons ha]
    · rfl

theorem length_le_of_mem_splitOnP (h : t ∈ list.splitOnP p) : t.length ≤ list.length := by
  induction list generalizing t with
  | nil =>
    obtain rfl : t = [] := by simpa using h
    exact Nat.le_refl _
  | cons a list ih =>
    rw [List.splitOnP_cons_eq_if_modifyHead] at h
    split at h
    · obtain rfl | h := List.mem_cons.mp h
      · exact Nat.zero_le _
      · exact Nat.le_succ_of_le (ih h)
    · obtain ⟨u, us, hu⟩ := List.exists_cons_of_ne_nil (List.splitOnP_ne_nil p list)
      rw [hu, List.modifyHead_cons] at h
      obtain rfl | h := List.mem_cons.mp h
      · exact Nat.succ_le_succ (ih (hu ▸ List.mem_cons_self))
      · exact Nat.le_succ_of_le (ih (hu ▸ List.mem_cons_of_mem _ h))

theorem length_le_of_mem_tokens (h : t ∈ tokens p list) : t.length ≤ list.length :=
  length_le_of_mem_splitOnP (List.mem_filter.mp h).1

end

/-! ## Buffers -/

/-- The string at a place of a buffer, up to its `'\0'`. -/
def cstring (buf : List UInt8) (s : Nat) : List UInt8 := (buf.drop s).takeWhile (· ≠ 0)

/-- `strtok_r`, with `s` or the saved position: the place of the token, the buffer and the position
that is saved. The loops are `takeWhile`. -/
def strtokR (delimiters : List UInt8) (buf : List UInt8) (s : Nat) :
    Option Nat × List UInt8 × Nat :=
  let token := s + ((buf.drop s).takeWhile (· ∈ delimiters)).length
  if buf.getD token 0 = 0 then (none, buf, token)
  else
    let s := token + ((buf.drop token).takeWhile fun c => c ≠ 0 ∧ c ∉ delimiters).length
    if buf.getD s 0 ≠ 0 then (some token, buf.set s 0, s + 1) else (some token, buf, s)

/-- A buffer has a string at a place. -/
def Holds (buf : List UInt8) (s : Nat) (str : List UInt8) : Prop :=
  0 ∉ str ∧ ∃ rest, buf.drop s = str ++ 0 :: rest

variable {buf str delimiters : List UInt8} {s : Nat}

theorem holds_buffer (h : 0 ∉ str) : Holds (str ++ [0]) 0 str := ⟨h, [], rfl⟩

theorem Holds.cstring_eq (h : Holds buf s str) : cstring buf s = str := by
  obtain ⟨hnul, rest, hbuf⟩ := h
  rw [cstring, hbuf, List.takeWhile_append_of_pos, List.takeWhile_cons, if_neg (by simp),
    List.append_nil]
  intro c hc
  have hne : c ≠ 0 := fun h0 => hnul (h0 ▸ hc)
  simpa using hne

/-- A loop over a string stops at its `'\0'`. -/
theorem Holds.takeWhile_eq {p : UInt8 → Bool} (h : Holds buf s str) (hp : p 0 = false) :
    (buf.drop s).takeWhile p = str.takeWhile p := by
  obtain ⟨-, rest, hbuf⟩ := h
  have hstop : (0 :: rest).takeWhile p = [] := by rw [List.takeWhile_cons, if_neg (by simp [hp])]
  rw [hbuf, List.takeWhile_append, hstop, List.append_nil]
  split
  · next hall => exact (List.takeWhile_prefix p).eq_of_length hall |>.symm
  · rfl

/-- What comes after a part of the string. -/
theorem Holds.drop {a b : List UInt8} (h : Holds buf s (a ++ b)) : Holds buf (s + a.length) b := by
  obtain ⟨hnul, rest, hbuf⟩ := h
  refine ⟨fun h0 => hnul (List.mem_append_right _ h0), rest, ?_⟩
  rw [← List.drop_drop, hbuf, List.append_assoc, List.drop_left]

theorem Holds.getD (h : Holds buf s str) : buf.getD s 0 = (str ++ [0]).headD 0 := by
  obtain ⟨-, rest, hbuf⟩ := h
  have hget : buf.getD s 0 = (buf.drop s).headD 0 := by
    rw [List.getD_eq_getElem?_getD, List.headD_eq_head?_getD, List.head?_drop]
  rw [hget, hbuf]
  cases str <;> rfl

/-- A delimiter is changed into a `'\0'`. -/
theorem Holds.cut {t r : List UInt8} {d : UInt8} (h : Holds buf s (t ++ d :: r)) :
    Holds (buf.set (s + t.length) 0) s t ∧
      Holds (buf.set (s + t.length) 0) (s + t.length + 1) r := by
  obtain ⟨hnul, rest, hbuf⟩ := h
  have ht : 0 ∉ t := fun h0 => hnul (List.mem_append_left _ h0)
  have hr : 0 ∉ r := fun h0 => hnul (List.mem_append_right _ (List.mem_cons_of_mem _ h0))
  have hset : (buf.set (s + t.length) 0).drop s = t ++ 0 :: (r ++ 0 :: rest) := by
    rw [List.drop_set, if_neg (by omega), Nat.add_sub_cancel_left, hbuf, List.append_assoc,
      List.set_append_right _ _ (Nat.le_refl _), Nat.sub_self]
    rfl
  refine ⟨⟨ht, _, hset⟩, hr, rest, ?_⟩
  rw [Nat.add_assoc, ← List.drop_drop, hset, ← List.drop_drop, List.drop_left]
  rfl

/-- What `strtok_r` does at the string `str`. -/
inductive Strtok (delimiters : List UInt8) (s : Nat) (str : List UInt8) :
    Option Nat × List UInt8 × Nat → Prop where
  | none {buf : List UInt8} {save : Nat} (h : tokens (· ∈ delimiters) str = []) :
      Strtok delimiters s str (none, buf, save)
  | some {buf : List UInt8} {save : Nat} {t rest : List UInt8}
      (h : tokens (· ∈ delimiters) str = t :: tokens (· ∈ delimiters) rest)
      (less : rest.length < str.length) (short : t.length ≤ str.length)
      (token : Holds buf (s + (str.takeWhile (· ∈ delimiters)).length) t)
      (saved : Holds buf save rest) :
      Strtok delimiters s str (some (s + (str.takeWhile (· ∈ delimiters)).length), buf, save)

/-- The second loop and what comes after it, at a string that does not begin with a delimiter. -/
theorem Holds.word {k : Nat} {c : UInt8} {r : List UInt8} (h : Holds buf k (c :: r))
    (hc : c ∉ delimiters) : ∃ t rest, tokens (· ∈ delimiters) (c :: r) =
      t :: tokens (· ∈ delimiters) rest ∧ rest.length < (c :: r).length ∧
      t.length ≤ (c :: r).length ∧
      let s := k + ((buf.drop k).takeWhile fun c => c ≠ 0 ∧ c ∉ delimiters).length
      if buf.getD s 0 ≠ 0 then Holds (buf.set s 0) k t ∧ Holds (buf.set s 0) (s + 1) rest
      else Holds buf k t ∧ Holds buf s rest := by
  have hnul : 0 ∉ c :: r := h.1
  have hsplit := (List.takeWhile_append_dropWhile (p := fun c => decide (c ≠ 0 ∧ c ∉ delimiters))
    (l := c :: r)).symm
  have hword : ∀ b ∈ (c :: r).takeWhile fun c => decide (c ≠ 0 ∧ c ∉ delimiters),
      decide (b ∈ delimiters) = false := by
    intro b hb
    have hb := List.mem_takeWhile_imp hb
    simp only [decide_eq_true_eq] at hb
    exact decide_eq_false hb.2
  have hne : ((c :: r).takeWhile fun c => decide (c ≠ 0 ∧ c ∉ delimiters)) ≠ [] := by
    have hc0 : c ≠ 0 := fun h0 => hnul (h0 ▸ List.mem_cons_self)
    rw [List.takeWhile_cons, if_pos (by simpa using ⟨hc0, hc⟩)]
    exact List.cons_ne_nil _ _
  have hstop := List.head?_dropWhile_not (fun c => decide (c ≠ 0 ∧ c ∉ delimiters)) (c :: r)
  rw [h.takeWhile_eq (by simp)]
  generalize ((c :: r).takeWhile fun c => decide (c ≠ 0 ∧ c ∉ delimiters)) = t at *
  generalize ((c :: r).dropWhile fun c => decide (c ≠ 0 ∧ c ∉ delimiters)) = r' at *
  rw [hsplit] at h hnul ⊢
  have hlength : 0 < t.length := List.length_pos_iff.mpr hne
  cases r' with
  | nil =>
    rw [List.append_nil] at h ⊢
    refine ⟨t, [], tokens_single hne hword, hlength, Nat.le_refl _, ?_⟩
    have hend : Holds buf (k + t.length) [] := Holds.drop (by rwa [List.append_nil])
    dsimp only
    rw [hend.getD]
    exact ⟨h, hend⟩
  | cons d rest =>
    have hd0 : d ≠ 0 := fun h0 =>
      hnul (List.mem_append_right _ (h0 ▸ List.mem_cons_self))
    have hd : decide (d ∈ delimiters) = true := by
      have hstop : decide (d ≠ 0 ∧ d ∉ delimiters) = false := by simpa using hstop
      simpa [hd0] using hstop
    refine ⟨t, rest, tokens_append hne hword hd, ?_, (List.sublist_append_left t _).length_le, ?_⟩
    · rw [List.length_append, List.length_cons]
      omega
    · have hend : Holds buf (k + t.length) (d :: rest) := h.drop
      dsimp only
      rw [hend.getD, if_pos (by simpa using hd0)]
      exact h.cut

theorem strtokR_spec (h0 : 0 ∉ delimiters) (h : Holds buf s str) :
    Strtok delimiters s str (strtokR delimiters buf s) := by
  have hdelim : (buf.drop s).takeWhile (· ∈ delimiters) = str.takeWhile (· ∈ delimiters) :=
    h.takeWhile_eq (by simpa using h0)
  have hskip : Holds buf (s + (str.takeWhile (· ∈ delimiters)).length)
      (str.dropWhile (· ∈ delimiters)) := by
    have hsplit := (List.takeWhile_append_dropWhile (p := (· ∈ delimiters)) (l := str)).symm
    rw [hsplit] at h
    exact h.drop
  have htokens := tokens_dropWhile (· ∈ delimiters) str
  have hlength := (List.dropWhile_sublist (fun c => decide (c ∈ delimiters)) (l := str)).length_le
  have hhead := List.head?_dropWhile_not (fun c => decide (c ∈ delimiters)) str
  rw [strtokR]
  dsimp only
  rw [hdelim, hskip.getD]
  cases hrest : str.dropWhile (· ∈ delimiters) with
  | nil =>
    rw [hrest] at htokens
    exact .none htokens.symm
  | cons c r =>
    rw [hrest] at hskip hhead htokens hlength
    have hc : c ∉ delimiters := by simpa using hhead
    have hc0 : c ≠ 0 := fun h0 => hskip.1 (h0 ▸ List.mem_cons_self)
    obtain ⟨t, rest, hword, hless, hshort, hplace⟩ := hskip.word hc
    rw [if_neg (by simpa using hc0)]
    dsimp only at hplace
    split
    · next hz =>
      rw [if_pos hz] at hplace
      exact .some (htokens.symm.trans hword) (Nat.lt_of_lt_of_le hless hlength)
        (Nat.le_trans hshort hlength) hplace.1 hplace.2
    · next hz =>
      rw [if_neg hz] at hplace
      exact .some (htokens.symm.trans hword) (Nat.lt_of_lt_of_le hless hlength)
        (Nat.le_trans hshort hlength) hplace.1 hplace.2

/-! ## What stays in the buffer -/

/-- A string ends where there is a NUL. -/
theorem Holds.length_le {k n : Nat} (h : Holds buf k str) (hn : buf.getD (k + n) 0 = 0) :
    str.length ≤ n := by
  obtain ⟨hnul, rest, hbuf⟩ := h
  by_contra hle
  have hlt : n < str.length := by omega
  have hget : buf.getD (k + n) 0 = str[n] := by
    rw [List.getD_eq_getElem?_getD, ← List.getElem?_drop, hbuf,
      List.getElem?_append_left hlt, List.getElem?_eq_getElem hlt, Option.getD_some]
  rw [hget] at hn
  exact hnul (hn ▸ List.getElem_mem _)

theorem getD_set_self (buf : List UInt8) (k : Nat) : (buf.set k 0).getD k 0 = 0 := by
  rw [List.getD_eq_getElem?_getD, List.getElem?_set, if_pos rfl]
  split <;> rfl

/-- A NUL behind a string. -/
theorem Holds.set_ge {k j : Nat} (h : Holds buf k str) (hj : k + str.length ≤ j) :
    Holds (buf.set j 0) k str := by
  obtain ⟨hnul, rest, hbuf⟩ := h
  refine ⟨hnul, ?_⟩
  rw [List.drop_set, if_neg (by omega), hbuf, List.set_append_right _ _ (by omega)]
  cases hi : j - k - str.length with
  | zero => exact ⟨rest, rfl⟩
  | succ i => exact ⟨rest.set i 0, rfl⟩

/-- `strtok_r` leaves the strings before the saved position as they are. -/
theorem strtokR_holds {k : Nat} (h : Holds buf k str) (hk : k + str.length ≤ s) :
    Holds (strtokR delimiters buf s).2.1 k str := by
  rw [Lib.strtokR]
  dsimp only
  split
  · exact h
  · split
    · exact h.set_ge (by omega)
    · exact h

/-- The position that is saved is behind the token. -/
theorem strtokR_saved {k : Nat} (hr : (strtokR delimiters buf s).1 = some k)
    (h : Holds (strtokR delimiters buf s).2.1 k str) :
    k + str.length ≤ (strtokR delimiters buf s).2.2 := by
  rw [strtokR] at hr h ⊢
  dsimp only at hr h ⊢
  split at hr
  · cases hr
  · next h0 =>
    rw [if_neg h0] at h ⊢
    split at hr
    · next hz =>
      rw [if_pos hz] at h ⊢
      cases hr
      have hend := h.length_le (getD_set_self buf _)
      dsimp only
      omega
    · next hz =>
      rw [if_neg hz] at h ⊢
      cases hr
      have hend := h.length_le (not_not.mp hz)
      dsimp only
      omega

end Pintos.Lib

import Pintos.Filesys.Path
import Mathlib.Algebra.GroupWithZero.Nat

/-!
# Splitting a path

`name_resolution` writes to `directory` all the components of a path but the last one, which it
writes to `filename`.

## Main results

* `splitPath_splits` — nothing is lost.
* `nameResolution_spec` — the buffers get what `splitPath` says, and nothing outside of them is
  touched.
* `name_resolution_splits` — both at once.
-/

namespace Pintos.Filesys

open Pintos.Lib

/-! ## Tokens -/

section

variable {α : Type} {p : α → Bool} {a : α} {list list' t : List α}

theorem tokens_split (ha : p a = true) (list list' : List α) :
    Lib.tokens p (list ++ a :: list') = Lib.tokens p list ++ Lib.tokens p list' := by
  rw [Lib.tokens, List.splitOnP_append_cons list list' ha, List.filter_append]
  rfl

theorem sum_length_splitOnP (p : α → Bool) (list : List α) :
    ((list.splitOnP p).map fun t => t.length + 1).sum = list.length + 1 := by
  induction list with
  | nil => simp
  | cons a list ih =>
    obtain ⟨u, us, hu⟩ := List.exists_cons_of_ne_nil (List.splitOnP_ne_nil p list)
    rw [hu, List.map_cons, List.sum_cons] at ih
    rw [List.splitOnP_cons_eq_if_modifyHead]
    split
    · rw [hu]
      simp only [List.map_cons, List.sum_cons, List.length_nil, List.length_cons]
      omega
    · rw [hu, List.modifyHead_cons]
      simp only [List.map_cons, List.sum_cons, List.length_cons]
      omega

/-- The tokens fit into a list with a place behind each of them, but for the last one. -/
theorem sum_length_tokens (p : α → Bool) (list : List α) :
    ((Lib.tokens p list).map fun t => t.length + 1).sum ≤ list.length + 1 := by
  rw [← sum_length_splitOnP p list, Lib.tokens]
  induction list.splitOnP p with
  | nil => exact Nat.le_refl _
  | cons t ts ih =>
    rw [List.filter_cons]
    split
    · exact Nat.add_le_add_left ih _
    · exact Nat.le_trans ih (Nat.le_add_left _ _)

theorem mem_tokens (h : t ∈ Lib.tokens p list) : t ≠ [] ∧ ∀ c ∈ t, p c = false := by
  obtain ⟨ht, hne⟩ := List.mem_filter.mp h
  refine ⟨by simpa using hne, ?_⟩
  clear h hne
  induction list generalizing t with
  | nil =>
    obtain rfl : t = [] := by simpa using ht
    simp
  | cons a list ih =>
    rw [List.splitOnP_cons_eq_if_modifyHead] at ht
    split at ht
    · rcases List.mem_cons.mp ht with rfl | ht
      · simp
      · exact ih ht
    · next ha =>
      obtain ⟨u, us, hu⟩ := List.exists_cons_of_ne_nil (List.splitOnP_ne_nil p list)
      rw [hu, List.modifyHead_cons] at ht
      rcases List.mem_cons.mp ht with rfl | ht
      · intro c hc
        rcases List.mem_cons.mp hc with rfl | hc
        · simpa using ha
        · exact ih (hu ▸ List.mem_cons_self) c hc
      · exact ih (hu ▸ List.mem_cons_of_mem _ ht)

end

/-- The components of a path. -/
def components (path : List UInt8) : List (List UInt8) := Lib.tokens (· ∈ [slash]) path

theorem components_slash (path path' : List UInt8) :
    components (path ++ slash :: path') = components path ++ components path' :=
  tokens_split (by decide) path path'

theorem components_nil : components [] = [] := rfl

theorem components_name {name : List UInt8} (hne : name ≠ []) (hs : slash ∉ name) :
    components name = [name] :=
  tokens_single hne fun c hc => by
    have hcs : c ≠ slash := fun h => hs (h ▸ hc)
    simpa using hcs

theorem mem_components {name path : List UInt8} (h : name ∈ components path) :
    name ≠ [] ∧ slash ∉ name := by
  obtain ⟨hne, hs⟩ := mem_tokens h
  exact ⟨hne, fun hmem => by simpa using hs slash hmem⟩

/-- `strtok_r` on strings gives the next token. -/
theorem strtokR_components (s : CString) :
    match strtokR s with
    | none => components s.bytes = []
    | some (token, rest) => components s.bytes = token.bytes :: components rest.bytes ∧
        rest.length < s.length := by
  have hp : (fun c : UInt8 => c == slash) = fun c => decide (c ∈ [slash]) := by
    funext c
    simp [Bool.beq_eq_decide_eq]
  have hskip : components (s.bytes.dropWhile (· == slash)) = components s.bytes := by
    rw [hp]
    exact tokens_dropWhile _ _
  have hlength := (List.dropWhile_sublist (· == slash) (l := s.bytes)).length_le
  have hhead := List.head?_dropWhile_not (· == slash) s.bytes
  have hsplit := List.takeWhile_append_dropWhile (p := (· != slash))
    (l := s.bytes.dropWhile (· == slash))
  have hword : ∀ c ∈ (s.bytes.dropWhile (· == slash)).takeWhile (· != slash), c ≠ slash :=
    fun c hc => by simpa using List.mem_takeWhile_imp hc
  have hstop := List.head?_dropWhile_not (· != slash) (s.bytes.dropWhile (· == slash))
  by_cases hnil : s.bytes.dropWhile (· == slash) = []
  · simp only [strtokR, if_pos hnil]
    rw [← hskip, hnil, components_nil]
  · simp only [strtokR, if_neg hnil, CString.part, CString.length]
    generalize s.bytes.dropWhile (· == slash) = t at *
    have hne : t.takeWhile (· != slash) ≠ [] := by
      cases t with
      | nil => exact absurd rfl hnil
      | cons c t =>
        have hc : c ≠ slash := by simpa using hhead
        simp [hc]
    have hs : slash ∉ t.takeWhile (· != slash) := fun h => hword slash h rfl
    generalize t.takeWhile (· != slash) = word at *
    rw [← hskip]
    cases hrest : t.dropWhile (· != slash) with
    | nil =>
      rw [hrest, List.append_nil] at hsplit
      have hpos : 0 < t.length := List.length_pos_iff.mpr hnil
      refine ⟨?_, Nat.lt_of_lt_of_le hpos hlength⟩
      rw [← hsplit, components_name hne hs]
      rfl
    | cons d rest =>
      rw [hrest] at hstop hsplit
      obtain rfl : d = slash := by simpa using hstop
      refine ⟨?_, ?_⟩
      · rw [← hsplit, components_slash, components_name hne hs]
        rfl
      · have hlen : word.length + (rest.length + 1) = t.length := by simp [← hsplit]
        show rest.length < _
        omega

theorem tokensFrom_eq (fuel : Nat) : ∀ s : CString, s.length ≤ fuel →
    (tokensFrom fuel s).map (·.bytes) = components s.bytes := by
  induction fuel with
  | zero =>
    intro s hs
    have hnil : s.bytes = [] := List.length_eq_zero_iff.mp (Nat.le_zero.mp hs)
    rw [hnil]
    rfl
  | succ fuel ih =>
    intro s hs
    have hspec := strtokR_components s
    rw [tokensFrom]
    cases htok : strtokR s with
    | none =>
      rw [htok] at hspec
      exact hspec.symm
    | some r =>
      obtain ⟨token, rest⟩ := r
      rw [htok] at hspec
      rw [hspec.1, List.map_cons, ih rest (by omega)]

theorem length_tokensFrom_le (fuel : Nat) : ∀ s : CString, (tokensFrom fuel s).length ≤ fuel := by
  induction fuel with
  | zero => exact fun _ => Nat.le_refl _
  | succ fuel ih =>
    intro s
    rw [tokensFrom]
    split
    · exact Nat.zero_le _
    · next rest _ => exact Nat.succ_le_succ (ih rest)

/-- The tokens of a path are its components. -/
theorem tokens_eq (path : CString) : (tokens path).map (·.bytes) = components path.bytes :=
  tokensFrom_eq path.length path (Nat.le_refl _)

/-! ## What `name_resolution` splits a path into -/

/-- A directory that names can be added to. -/
def Closed (directory : List UInt8) : Prop := directory = [] ∨ ∃ d, directory = d ++ [slash]

/-- The components of a directory, and the name of a file in it if there is one. -/
def joined (split : List UInt8 × List UInt8) : List (List UInt8) :=
  components split.1 ++ if split.2 = [] then [] else [split.2]

theorem Closed.add {directory name : List UInt8} (h : Closed directory) (hne : name ≠ [])
    (hs : slash ∉ name) :
    components (directory ++ name ++ [slash]) = components directory ++ [name] := by
  have hname : components (directory ++ name) = components directory ++ [name] := by
    rcases h with rfl | ⟨d, rfl⟩
    · rw [List.nil_append, components_name hne hs, components_nil, List.nil_append]
    · rw [List.append_assoc, List.singleton_append, components_slash, components_slash,
        components_nil, List.append_nil, components_name hne hs]
  rw [components_slash, components_nil, List.append_nil, hname]

/-- The loop loses nothing. -/
theorem joined_splitTokens {directory lastToken : List UInt8} (h : Closed directory)
    (hs : slash ∉ lastToken) (ts : List CString) (hts : ∀ t ∈ ts, t.bytes ≠ [] ∧ slash ∉ t.bytes) :
    joined (splitTokens directory lastToken ts) =
      joined (directory, lastToken) ++ ts.map (·.bytes) := by
  induction ts generalizing directory lastToken with
  | nil => rw [splitTokens, List.map_nil, List.append_nil]
  | cons t ts ih =>
    obtain ⟨hne, hts'⟩ := hts t List.mem_cons_self
    have hrest := fun u hu => hts u (List.mem_cons_of_mem t hu)
    rw [splitTokens]
    split
    · next hlast =>
      rw [ih h hts' hrest, hlast]
      simp [joined, hne]
    · next hlast =>
      rw [ih (.inr ⟨_, rfl⟩) hts' hrest]
      rw [joined, joined]
      dsimp only
      rw [if_neg hne, if_neg hlast, h.add hlast hs]
      simp

theorem splitTokens_absolute {directory lastToken : List UInt8} (hs : slash ∉ lastToken)
    (ts : List CString) (hts : ∀ t ∈ ts, slash ∉ t.bytes) :
    (splitTokens directory lastToken ts).1.head? = some slash ↔ directory.head? = some slash := by
  induction ts generalizing directory lastToken with
  | nil => exact Iff.rfl
  | cons t ts ih =>
    rw [splitTokens, ih (hts t List.mem_cons_self) fun u hu => hts u (List.mem_cons_of_mem t hu)]
    split
    · exact Iff.rfl
    · next hlast =>
      cases directory with
      | nil =>
        obtain ⟨c, name, rfl⟩ := List.exists_cons_of_ne_nil hlast
        have hc : c ≠ slash := fun h => hs (h ▸ List.mem_cons_self)
        simp [hc]
      | cons c directory => simp

theorem splitTokens_filename (directory lastToken : List UInt8) (ts : List CString) :
    (splitTokens directory lastToken ts).2 = (ts.map (·.bytes)).getLastD lastToken := by
  induction ts generalizing directory lastToken with
  | nil => rfl
  | cons t ts ih =>
    rw [splitTokens, ih, List.map_cons, List.getLastD_cons]

/-- What a split of a path is. -/
structure Splits (path directory filename : List UInt8) : Prop where
  components : joined (directory, filename) = components path
  name : slash ∉ filename
  empty : filename = [] ↔ Filesys.components path = []
  absolute : directory.head? = some slash ↔ path.head? = some slash

theorem splitPath_splits (path : CString) :
    Splits path.bytes (splitPath path).1 (splitPath path).2 := by
  have htokens : ∀ t ∈ tokens path, t.bytes ≠ [] ∧ slash ∉ t.bytes := fun t ht => by
    have hmem : t.bytes ∈ components path.bytes := by
      rw [← tokens_eq]
      exact List.mem_map_of_mem ht
    exact mem_components hmem
  have hfile : (splitPath path).2 = (components path.bytes).getLastD [] := by
    rw [splitPath, splitTokens_filename, tokens_eq]
  have hlast : components path.bytes = [] ∨
      (components path.bytes).getLastD [] ∈ components path.bytes := by
    cases hc : components path.bytes with
    | nil => exact .inl rfl
    | cons t ts => exact .inr (by rw [List.getLastD_cons]; exact List.getLastD_mem_cons ..)
  refine ⟨?_, ?_, ?_, ?_⟩
  · have hclosed : Closed (if path.bytes.head? = some slash then [slash] else []) := by
      split
      · exact .inr ⟨[], rfl⟩
      · exact .inl rfl
    have hstart : components (if path.bytes.head? = some slash then [slash] else []) = [] := by
      split <;> rfl
    have hjoined := joined_splitTokens hclosed List.not_mem_nil (tokens path) htokens
    rw [tokens_eq] at hjoined
    refine hjoined.trans ?_
    simp [joined, hstart]
  · rw [hfile]
    rcases hlast with hnil | hmem
    · simp [hnil]
    · exact (mem_components hmem).2
  · rw [hfile]
    rcases hlast with hnil | hmem
    · simp [hnil]
    · refine ⟨fun h => absurd h (mem_components hmem).1, fun h => ?_⟩
      rw [h] at hmem
      cases hmem
  · rw [splitPath, splitTokens_absolute (by simp) _ fun t ht => (htokens t ht).2]
    split
    · next h => simp [h]
    · next h => simp [h]

/-! ## Buffers -/

namespace Path

variable {s s' buf str bytes done free : List UInt8} {j k : Nat}

theorem strlenLoop_append (hnul : 0 ∉ str) (rest : List UInt8) :
    strlenLoop (str ++ 0 :: rest) = .ok str.length := by
  induction str with
  | nil => rfl
  | cons c str ih =>
    rw [List.mem_cons, not_or] at hnul
    rw [List.cons_append, strlenLoop, if_neg (Ne.symm hnul.1), ih hnul.2]
    rfl

theorem strlen_eq (h : Holds buf k str) : strlen buf k = .ok str.length := by
  obtain ⟨hnul, rest, hbuf⟩ := h
  rw [strlen, hbuf, strlenLoop_append hnul]

theorem store_append (b : UInt8) (hfree : 0 < free.length) :
    store (done ++ free) done.length b = .ok (done ++ b :: free.drop 1) := by
  obtain ⟨c, free, rfl⟩ := List.exists_cons_of_length_pos hfree
  rw [store, if_pos (by simp), List.set_append_right _ _ (Nat.le_refl _), Nat.sub_self]
  rfl

/-- Bytes are written behind what there is. -/
theorem memcpy_append (src : List UInt8) (size : Nat) : ∀ (done free : List UInt8) (j : Nat)
    (bytes rest : List UInt8), src.drop j = bytes ++ rest → bytes.length = size →
    size ≤ free.length →
    memcpy src (done ++ free) done.length j size = .ok (done ++ bytes ++ free.drop size) := by
  induction size with
  | zero =>
    intro done free j bytes rest _ hsize _
    rw [List.length_eq_zero_iff.mp hsize, List.append_nil, memcpy, List.drop_zero]
  | succ size ih =>
    intro done free j bytes rest hsrc hsize hfree
    cases bytes with
    | nil => cases hsize
    | cons b bytes =>
      have hload : load src j = .ok b := by
        have hget : src[j]? = some b := by
          rw [← List.head?_drop, hsrc]
          rfl
        rw [load, hget]
      have hnext : src.drop (j + 1) = bytes ++ rest := by
        rw [← List.drop_drop, hsrc]
        rfl
      have hrec := ih (done ++ [b]) (free.drop 1) (j + 1) bytes rest hnext
        (Nat.succ.inj hsize) (by rw [List.length_drop]; omega)
      rw [List.length_append, List.length_singleton, List.append_assoc, List.singleton_append,
        List.drop_drop] at hrec
      rw [memcpy, hload]
      show (store (done ++ free) done.length b).bind _ = _
      rw [store_append b (by omega)]
      refine hrec.trans ?_
      simp [Nat.add_comm]

/-! ## The loop -/

/-- What the last call of `strtok_r` has given, when `ts` are the components to come. -/
inductive Pending : Option Nat × List UInt8 × Nat → List CString → Prop where
  | none (s : List UInt8) (p : Nat) : Pending (none, s, p) []
  | some {s rest : List UInt8} {k p : Nat} {t : CString} {ts : List CString}
      (token : Holds s k t.bytes) (saved : Holds s p rest) (le : k + t.bytes.length ≤ p)
      (hts : ts.map (·.bytes) = components rest) : Pending (some k, s, p) (t :: ts)

/-- The string that `last_token` points to. -/
def LastToken (s : List UInt8) (lastToken : Option Nat) (last : List UInt8) : Prop :=
  match lastToken with
  | none => last = []
  | some k => Holds s k last

/-- The room that a component takes in `directory`. -/
def width (name : List UInt8) : Nat := if name = [] then 0 else name.length + 1

theorem pending_strtokR {p : Nat} {ts : List CString} (h : Holds s p str)
    (hts : ts.map (·.bytes) = components str) : Pending (Lib.strtokR [slash] s p) ts := by
  have hspec := strtokR_spec (show 0 ∉ [slash] by decide) h
  generalize hr : Lib.strtokR [slash] s p = r at hspec
  cases hspec with
  | none hnil =>
    rw [components, hnil] at hts
    rw [List.map_eq_nil_iff.mp hts]
    exact .none _ _
  | some htokens _ _ token saved =>
    rw [components, htokens] at hts
    cases ts with
    | nil => cases hts
    | cons t ts =>
      obtain ⟨rfl, hrest⟩ := List.cons.inj hts
      have hle : _ + t.bytes.length ≤ (Lib.strtokR [slash] s p).2.2 :=
        strtokR_saved (by rw [hr]) (by rw [hr]; exact token)
      rw [hr] at hle
      exact .some token saved hle hrest

theorem add_eq {lastToken : Option Nat} {last : List UInt8} (h : LastToken s lastToken last)
    (hfree : width last ≤ free.length) :
    Output.add ⟨done ++ free, done.length⟩ s lastToken =
      .ok ⟨(if last = [] then done else done ++ last ++ [slash]) ++ free.drop (width last),
        (if last = [] then done else done ++ last ++ [slash]).length⟩ := by
  cases lastToken with
  | none =>
    obtain rfl : last = [] := h
    rfl
  | some k =>
    have h : Holds s k last := h
    obtain ⟨rest, hrest⟩ := h.2
    simp only [Output.add, strlen_eq h]
    by_cases hlast : last = []
    · simp [hlast, width, bind, Except.bind, pure, Except.pure]
    · rw [width, if_neg hlast] at hfree
      have hpos : 0 < last.length := List.length_pos_iff.mpr hlast
      have hcopy := memcpy_append s last.length done free k last (0 :: rest) hrest rfl (by omega)
      have hstore := @store_append (done ++ last) (free.drop last.length) slash
        (by rw [List.length_drop]; omega)
      rw [List.length_append] at hstore
      rw [if_neg hlast, width, if_neg hlast]
      simp only [bind, Except.bind, if_pos hpos, hcopy, hstore, pure, Except.pure]
      simp [List.drop_drop]

/-- `directory` and `last_token` at the end of the loop. -/
structure Ended (size : Nat) (split : List UInt8 × List UInt8)
    (r : Output × List UInt8 × Option Nat) : Prop where
  directory : ∃ free, r.1 = ⟨split.1 ++ free, split.1.length⟩ ∧
    (split.1 ++ free).length = size ∧ 0 < free.length ∧ width split.2 ≤ free.length
  lastToken : LastToken r.2.1 r.2.2 split.2

/-- There is room for each component that is still to come. -/
theorem splitLoop_spec (rounds : Nat) : ∀ (r : Option Nat × List UInt8 × Nat) (ts : List CString)
    (done free last : List UInt8) (lastToken : Option Nat), Pending r ts →
    LastToken r.2.1 lastToken last → ts.length < rounds → 0 < free.length →
    width last + (ts.map fun t => t.bytes.length + 1).sum ≤ free.length →
    ∃ r', splitLoop rounds ⟨done ++ free, done.length⟩ lastToken r = .ok r' ∧
      Ended (done ++ free).length (splitTokens done last ts) r' := by
  induction rounds with
  | zero => exact fun _ _ _ _ _ _ _ _ h => absurd h (Nat.not_lt_zero _)
  | succ rounds ih =>
    intro r ts done free last lastToken hpending hlast hrounds hpos hfree
    cases hpending with
    | none s p => exact ⟨_, rfl, ⟨free, rfl, rfl, hpos, by simpa [splitTokens] using hfree⟩, hlast⟩
    | @some s rest k p t ts token saved le hts =>
      simp only [List.map_cons, List.sum_cons] at hfree
      have hadd : Output.add ⟨done ++ free, done.length⟩ s lastToken = _ :=
        add_eq hlast (by omega)
      obtain ⟨done', hdone⟩ : ∃ done', done' =
        if last = [] then done else done ++ last ++ [slash] := ⟨_, rfl⟩
      have hlength : (done' ++ free.drop (width last)).length = (done ++ free).length := by
        by_cases hnil : last = []
        · simp [hdone, hnil, width]
        · rw [width, if_neg hnil] at hfree ⊢
          simp only [hdone, if_neg hnil, List.length_append, List.length_drop,
            List.length_singleton]
          omega
      rw [← hdone] at hadd
      have htoken : LastToken (Lib.strtokR [slash] s p).2.1 (some k) t.bytes :=
        strtokR_holds token le
      obtain ⟨r', hloop, hended⟩ := ih (Lib.strtokR [slash] s p) ts done'
        (free.drop (width last)) t.bytes (some k) (pending_strtokR saved hts) htoken
        (Nat.lt_of_succ_lt_succ hrounds) (by rw [List.length_drop]; omega)
        (by
          have hw : width t.bytes ≤ t.bytes.length + 1 := by
            rw [width]
            split <;> omega
          rw [List.length_drop]
          omega)
      refine ⟨r', ?_, ?_⟩
      · rw [splitLoop, hadd]
        exact hloop
      · rw [splitTokens, ← hdone, ← hlength]
        exact hended

/-- More rounds do nothing else. -/
theorem splitLoop_le {n n' : Nat} {directory : Output} {lastToken : Option Nat}
    {r : Option Nat × List UInt8 × Nat} {r' : Output × List UInt8 × Option Nat}
    (h : splitLoop n directory lastToken r = .ok r') (hn : n ≤ n') :
    splitLoop n' directory lastToken r = .ok r' := by
  induction n generalizing n' directory lastToken r with
  | zero => cases h
  | succ n ih =>
    obtain ⟨n', rfl⟩ := Nat.exists_eq_succ_of_ne_zero (by omega : n' ≠ 0)
    obtain ⟨token, s, p⟩ := r
    cases token with
    | none => exact h
    | some token =>
      rw [splitLoop] at h ⊢
      cases hadd : directory.add s lastToken with
      | error f =>
        rw [hadd] at h
        cases h
      | ok directory' =>
        rw [hadd] at h
        exact ih h (Nat.le_of_succ_le_succ hn)

/-! ## The function -/

/-- The weight of the components of a path leaves room for the first `'/'` and the NUL. -/
theorem start_room (path : CString) :
    (if path.bytes.head? = some slash then 1 else 0) +
      ((tokens path).map fun t => t.bytes.length + 1).sum ≤ path.length + 1 := by
  have hsum : (tokens path).map (fun t => t.bytes.length + 1) =
      (components path.bytes).map fun t => t.length + 1 := by
    rw [← tokens_eq, List.map_map]
    rfl
  rw [hsum]
  split
  · next h =>
    obtain ⟨rest, hrest⟩ := List.head?_eq_some_iff.mp h
    have hle := sum_length_tokens (· ∈ [slash]) rest
    have hcomp : components path.bytes = components rest := by
      rw [hrest]
      exact tokens_cons (by decide)
    have hlen : path.length = rest.length + 1 := by
      rw [CString.length, hrest, List.length_cons]
    rw [hcomp, components]
    omega
  · rw [Nat.zero_add]
    exact sum_length_tokens (· ∈ [slash]) path.bytes

theorem start_eq (path : CString) {directory : List UInt8}
    (hd : directory.length = path.length + 1) :
    Output.start directory path.bytes =
      .ok ⟨(if path.bytes.head? = some slash then [slash] else []) ++
        directory.drop (if path.bytes.head? = some slash then 1 else 0),
        (if path.bytes.head? = some slash then [slash] else []).length⟩ := by
  rw [Output.start]
  split
  · have hstore := @store_append [] directory slash (by omega)
    rw [List.nil_append, List.length_nil, List.nil_append] at hstore
    rw [hstore]
    rfl
  · rfl

/-- `filename` gets the last component. -/
theorem copyName_eq {filename last : List UInt8} {lastToken : Option Nat}
    (h : LastToken s lastToken last) (hf : last.length + 1 ≤ filename.length) :
    copyName filename s lastToken = .ok (last ++ 0 :: filename.drop (last.length + 1)) := by
  cases lastToken with
  | none =>
    obtain rfl : last = [] := h
    exact memcpy_append [0] 1 [] filename 0 [0] [] rfl rfl hf
  | some k =>
    have h : Holds s k last := h
    obtain ⟨rest, hrest⟩ := h.2
    have hcopy := memcpy_append s (last.length + 1) [] filename k (last ++ [0]) rest
      (by rw [hrest]; simp) (by simp) hf
    simp only [copyName, strlen_eq h, bind, Except.bind]
    refine hcopy.trans ?_
    simp

/-- What `splitPath` says is what is in the buffers, which keep their size. -/
theorem nameResolution_spec (path : CString) {directory filename : List UInt8}
    (hd : directory.length = path.length + 1) (hf : filename.length = path.length + 1) :
    ∃ directory' filename', (∀ rounds, path.length < rounds →
        nameResolution true rounds path.bytes directory filename = .ok (directory', filename')) ∧
      directory'.length = path.length + 1 ∧ filename'.length = path.length + 1 ∧
      Holds directory' 0 (splitPath path).1 ∧ Holds filename' 0 (splitPath path).2 := by
  obtain ⟨done, hdone⟩ : ∃ done, done = if path.bytes.head? = some slash then [slash] else [] :=
    ⟨_, rfl⟩
  obtain ⟨free, hfree⟩ : ∃ free, free =
    directory.drop (if path.bytes.head? = some slash then 1 else 0) := ⟨_, rfl⟩
  have hstart := start_eq path hd
  have hroom := start_room path
  have hsize : (done ++ free).length = path.length + 1 ∧
      ((tokens path).map fun t => t.bytes.length + 1).sum ≤ free.length ∧ 0 < free.length := by
    rw [List.length_append, hdone, hfree, List.length_drop, hd]
    split
    · next h =>
      have hpos : 0 < path.length := List.length_pos_iff.mpr fun hnil => by simp [hnil] at h
      rw [if_pos h] at hroom
      simp only [List.length_singleton]
      omega
    · next h =>
      rw [if_neg h] at hroom
      simp only [List.length_nil]
      omega
  rw [← hdone, ← hfree] at hstart
  obtain ⟨⟨output, s, lastToken⟩, hloop, ⟨free', houtput, hlen, hpos, hwidth⟩, hlast⟩ :=
    splitLoop_spec (path.length + 1) (Lib.strtokR [slash] (path.bytes ++ [0]) 0) (tokens path)
      done free [] none (pending_strtokR (holds_buffer path.nul_free) (tokens_eq path)) rfl
      (Nat.lt_succ_of_le (length_tokensFrom_le _ path)) hsize.2.2
      (by rw [width, if_pos rfl, Nat.zero_add]; exact hsize.2.1)
  have hsplit : splitTokens done [] (tokens path) = splitPath path := by rw [hdone, splitPath]
  rw [hsplit] at houtput hlen hwidth hlast
  dsimp only at houtput hlast
  have hname : (splitPath path).2.length + 1 ≤ filename.length := by
    rw [hf, ← hsize.1, ← hlen, List.length_append]
    rw [width] at hwidth
    split at hwidth
    · next hnil =>
      rw [hnil, List.length_nil]
      omega
    · omega
  have hnul := splitPath_nul_free path
  have hstore : store ((splitPath path).1 ++ free') (splitPath path).1.length 0 = _ :=
    store_append 0 hpos
  refine ⟨(splitPath path).1 ++ 0 :: free'.drop 1,
    (splitPath path).2 ++ 0 :: filename.drop ((splitPath path).2.length + 1),
    fun n hn => ?_, ?_, ?_, ⟨hnul.1, _, rfl⟩, ⟨hnul.2, _, rfl⟩⟩
  · simp only [nameResolution, if_true, hstart, splitLoop_le hloop hn, houtput, hstore,
      copyName_eq hlast hname, bind, Except.bind, pure, Except.pure]
  · rw [← hsize.1, ← hlen, List.length_append, List.length_append, List.length_cons,
      List.length_drop]
    omega
  · rw [List.length_append, List.length_cons, List.length_drop]
    omega

/-- What a caller finds in its buffers, of one byte more than the path. -/
structure Resolved (path directory filename : List UInt8) : Prop where
  directory_length : directory.length = path.length + 1
  filename_length : filename.length = path.length + 1
  strings : ∃ dir name, Holds directory 0 dir ∧ Holds filename 0 name ∧ Splits path dir name

/-- `name_resolution` splits a path without a loss, and inside of the buffers of its callers. Where
there is no memory for `s`, nothing is written to them. -/
theorem name_resolution_splits (path : CString) (directory filename : List UInt8)
    (hd : directory.length = path.length + 1) (hf : filename.length = path.length + 1) :
    (∃ directory' filename', Resolved path.bytes directory' filename' ∧
      ∀ rounds, path.length < rounds →
        nameResolution true rounds path.bytes directory filename =
          .ok (directory', filename')) ∧
      ∀ rounds, nameResolution false rounds path.bytes directory filename = .error .assertion := by
  obtain ⟨directory', filename', hrun, hdir, hfile, hholds, hholds'⟩ :=
    nameResolution_spec path hd hf
  exact ⟨⟨directory', filename', ⟨hdir, hfile, _, _, hholds, hholds', splitPath_splits path⟩, hrun⟩,
    fun _ => rfl⟩

/-- The path `"/a//b/"`. -/
theorem name_resolution_splits_slashes :
    (∃ directory' filename', Resolved [47, 97, 47, 47, 98, 47] directory' filename' ∧
      ∀ rounds, 6 < rounds →
        nameResolution true rounds [47, 97, 47, 47, 98, 47] (List.replicate 7 255)
          (List.replicate 7 255) = .ok (directory', filename')) ∧
      ∀ rounds, nameResolution false rounds [47, 97, 47, 47, 98, 47] (List.replicate 7 255)
        (List.replicate 7 255) = .error .assertion :=
  name_resolution_splits ⟨[47, 97, 47, 47, 98, 47], by decide⟩ (List.replicate 7 255)
    (List.replicate 7 255) rfl rfl

end Path

end Pintos.Filesys

import Pintos.Userprog.Args
import Mathlib.Algebra.Order.BigOperators.Group.List
import Mathlib.Algebra.Order.Group.Nat
import Mathlib.Data.List.GetD

/-!
# The arguments on the stack

`setup_stack` builds the stack of a process from the top of a page down, so the bytes written so far
are a list that grows at its front (`Image`).

* `setup_stack_layout` — what a process finds on its stack.
* `args_contained_iff` — when `setup_stack` keeps to its page and to `argvs`.
-/

namespace Pintos.Args

open Pintos.Logic Pintos.Lib Pintos.Userprog

variable {α β : Type} {m m' : Machine} {bs bs' bs'' new : List UInt8} {o : Outcomes}
  {fileName : CString} {ts : List (List UInt8)} {a : α} {b : β} {fits fits' : Prop}

theorem stackPage_add : stackPage + pgSize = physBase := by decide

theorem pgSize_eq : pgSize = 4096 := rfl

theorem pgSize_le : pgSize ≤ stackPage := by decide

theorem physBase_mod : physBase % 4 = 0 := by decide

theorem physBase_lt : physBase < 2 ^ 32 := by decide

theorem physBase_add_le : physBase + pgSize ≤ 2 ^ 32 := by decide

attribute [local irreducible] physBase stackPage pgSize

/-! ## Writes -/

/-- The bytes `bs` are written from `addr` on. -/
def Machine.written (m : Machine) (addr : Nat) (bs : List UInt8) : Machine :=
  { m with
    mem := fun a => if addr ≤ a ∧ a < addr + bs.length then bs.getD (a - addr) 0 else m.mem a }

theorem storeBytes_ok {addr : Nat} (h : stackPage ≤ addr)
    (hend : addr + bs.length ≤ physBase) : storeBytes addr bs m = .ok ((), m.written addr bs) := by
  induction bs generalizing m addr with
  | nil =>
    have hsame : m.written addr [] = m := by
      simp only [Machine.written, List.length_nil]
      congr 1
      funext a
      exact if_neg (by omega)
    rw [hsame]
    rfl
  | cons c bs ih =>
    rw [List.length_cons] at hend
    have hin : stackPage ≤ addr ∧ addr < physBase := ⟨h, by omega⟩
    have hstore : store addr c m = .ok ((), m.written addr [c]) := by
      rw [store, if_pos hin]
      simp only [Exec.modify, Machine.written, List.length_cons, List.length_nil]
      congr 3
      funext a
      by_cases ha : a = addr
      · subst ha
        rw [if_pos rfl, if_pos (by omega), Nat.sub_self]
        rfl
      · rw [if_neg ha, if_neg (by omega)]
    rw [storeBytes, Exec.run_bind hstore, ih (by omega) (by omega)]
    congr 2
    simp only [Machine.written, List.length_cons, List.length_nil]
    congr 1
    funext a
    by_cases ha : a = addr
    · subst ha
      rw [if_neg (by omega), if_pos (by omega), if_pos (by omega), Nat.sub_self]
      rfl
    · by_cases hin : addr ≤ a ∧ a < addr + (bs.length + 1)
      · have hsub : a - addr = (a - (addr + 1)) + 1 := by omega
        rw [if_pos (by omega), if_pos hin, hsub]
        rfl
      · rw [if_neg (by omega), if_neg (by omega), if_neg hin]

theorem storeBytes_outside {addr : Nat} {c : UInt8}
    (h : addr < stackPage ∨ physBase ≤ addr) :
    storeBytes addr (c :: bs) m = .error .outside := by
  rw [storeBytes]
  refine Exec.run_bind_error ?_
  have hout : ¬ (stackPage ≤ addr ∧ addr < physBase) := by omega
  rw [store, if_neg hout]
  rfl

/-! ## The image of the stack -/

/-- The bytes from `esp` to the end of the page of the stack. -/
structure Image (m : Machine) (bs : List UInt8) : Prop where
  esp : m.esp + bs.length = physBase
  fits : bs.length ≤ pgSize
  bytes : ∀ i < bs.length, m.mem (m.esp + i) = bs.getD i 0

/-- Nothing but `esp` and the page of the stack changes. -/
structure Kept (m m' : Machine) : Prop where
  live : m'.live = m.live
  next : m'.next = m.next
  mem : ∀ a, a < stackPage ∨ physBase ≤ a → m'.mem a = m.mem a

/-- The top of the stack. -/
def top (bs : List UInt8) : Nat := physBase - bs.length

theorem Image.esp_eq (h : Image m bs) : m.esp = top bs := by
  have := h.esp
  unfold top
  omega

theorem Image.gets (h : Image m bs) :
    (Exec.gets (·.esp) : Code Nat) m = .ok (top bs, m) := by rw [Exec.gets, h.esp_eq]

theorem Kept.refl (m : Machine) : Kept m m := ⟨rfl, rfl, fun _ _ => rfl⟩

theorem Kept.trans {m'' : Machine} (h : Kept m m') (h' : Kept m' m'') : Kept m m'' :=
  ⟨h'.live.trans h.live, h'.next.trans h.next, fun a ha => (h'.mem a ha).trans (h.mem a ha)⟩

/-- Code that makes the image `bs` of the stack into `bs'` and returns `a` if that `fits`, and else
writes where it should not. -/
structure Grows (x : Code α) (bs bs' : List UInt8) (a : α) (fits : Prop) : Prop where
  ok : ∀ m, Image m bs → fits → ∃ m', x m = .ok (a, m') ∧ Image m' bs' ∧ Kept m m'
  out : ∀ m, Image m bs → ¬ fits → ∃ e, x m = .error e ∧ e ≠ .assertion

theorem Grows.bind {x : Code α} {f : α → Code β} (h : Grows x bs bs' a fits)
    (h' : Grows (f a) bs' bs'' b fits') : Grows (x >>= f) bs bs'' b (fits ∧ fits') where
  ok m hm hfits := by
    obtain ⟨m₁, hx, him, hk⟩ := h.ok m hm hfits.1
    obtain ⟨m₂, hf, him', hk'⟩ := h'.ok m₁ him hfits.2
    exact ⟨m₂, (Exec.run_bind hx).trans hf, him', hk.trans hk'⟩
  out m hm hfits := by
    by_cases hf : fits
    · obtain ⟨m₁, hx, him, -⟩ := h.ok m hm hf
      obtain ⟨e, he, hne⟩ := h'.out m₁ him fun hf' => hfits ⟨hf, hf'⟩
      exact ⟨e, (Exec.run_bind hx).trans he, hne⟩
    · obtain ⟨e, he, hne⟩ := h.out m hm hf
      exact ⟨e, Exec.run_bind_error he, hne⟩

theorem Grows.seq {x : Code Unit} {y : Code β} {u : Unit} (h : Grows x bs bs' u fits)
    (h' : Grows y bs' bs'' b fits') : Grows (do x; y) bs bs'' b (fits ∧ fits') := h.bind h'

theorem Grows.congr {x : Code α} (h : Grows x bs bs' a fits) (hf : fits' ↔ fits) :
    Grows x bs bs' a fits' where
  ok m hm hfits := h.ok m hm (hf.mp hfits)
  out m hm hfits := h.out m hm fun h' => hfits (hf.mpr h')

theorem grows_pure (a : α) (bs : List UInt8) : Grows (pure a) bs bs a True where
  ok m hm _ := ⟨m, rfl, hm, .refl m⟩
  out _ _ h := (h trivial).elim

/-- `*esp` is read. -/
theorem Grows.esp {f : Nat → Code β} (h : Grows (f (top bs)) bs bs' b fits) :
    Grows (Exec.gets (·.esp) >>= f) bs bs' b fits where
  ok m hm hfits := by
    rw [Exec.run_bind hm.gets]
    exact h.ok m hm hfits
  out m hm hfits := by
    rw [Exec.run_bind hm.gets]
    exact h.out m hm hfits

/-- Bytes are written below the image. -/
theorem Image.store (h : Image m bs) (hfits : (new ++ bs).length ≤ pgSize) :
    storeBytes (top (new ++ bs)) new { m with esp := top (new ++ bs) } =
        .ok ((), { m with esp := top (new ++ bs) }.written (top (new ++ bs)) new) ∧
      Image ({ m with esp := top (new ++ bs) }.written (top (new ++ bs)) new) (new ++ bs) ∧
      Kept m ({ m with esp := top (new ++ bs) }.written (top (new ++ bs)) new) := by
  have hadd := stackPage_add
  have hle := pgSize_le
  have hesp := h.esp
  have hlength : (new ++ bs).length = new.length + bs.length := List.length_append
  have htop : top (new ++ bs) + (new ++ bs).length = physBase := by
    unfold top
    omega
  refine ⟨storeBytes_ok (by omega) (by omega), ⟨htop, hfits, fun i hi => ?_⟩, rfl, rfl,
    fun a ha => if_neg (by omega)⟩
  show (if top (new ++ bs) ≤ top (new ++ bs) + i ∧
      top (new ++ bs) + i < top (new ++ bs) + new.length then
    new.getD (top (new ++ bs) + i - top (new ++ bs)) 0 else m.mem (top (new ++ bs) + i)) = _
  by_cases hnew : i < new.length
  · have hsub : top (new ++ bs) + i - top (new ++ bs) = i := by omega
    rw [if_pos ⟨Nat.le_add_right _ _, by omega⟩, hsub, List.getD_append _ _ _ _ hnew]
  · have hold := h.bytes (i - new.length) (by omega)
    have hplace : top (new ++ bs) + i = m.esp + (i - new.length) := by omega
    rw [if_neg (by omega), List.getD_append_right _ _ _ _ (Nat.le_of_not_lt hnew), ← hold, hplace]

theorem Image.lower (h : Image m bs) {n : Nat} (hn : n ≤ pgSize) :
    lower n m = .ok ((), { m with esp := m.esp - n }) := by
  have hadd := stackPage_add
  have hle := pgSize_le
  have hesp := h.esp
  have hfits := h.fits
  rw [Args.lower, Exec.modify, if_pos (by omega)]

/-- Code that makes room for bytes and writes them. -/
theorem grows_lower {x : Code Unit} (hne : new ≠ []) (hlen : new.length ≤ pgSize)
    (hx : ∀ m, Image m bs →
      x m = storeBytes (m.esp - new.length) new { m with esp := m.esp - new.length }) :
    Grows x bs (new ++ bs) () ((new ++ bs).length ≤ pgSize) where
  ok m hm hfits := by
    have hesp : m.esp - new.length = top (new ++ bs) := by
      rw [hm.esp_eq, top, top, List.length_append]
      omega
    rw [hx m hm, hesp]
    exact ⟨_, hm.store hfits⟩
  out m hm hfits := by
    have hadd := stackPage_add
    have hle := pgSize_le
    have hesp := hm.esp
    have hbs := hm.fits
    rw [List.length_append] at hfits
    obtain ⟨c, rest, rfl⟩ := List.exists_cons_of_ne_nil hne
    exact ⟨_, (hx m hm).trans (storeBytes_outside (.inl (by omega))), by simp⟩

theorem grows_push (hne : new ≠ []) (hlen : new.length ≤ pgSize) :
    Grows (push new) bs (new ++ bs) () ((new ++ bs).length ≤ pgSize) := by
  refine grows_lower hne hlen fun m hm => ?_
  rw [push, Exec.run_bind (hm.lower hlen)]
  rfl

/-- A string is put on the stack. -/
theorem grows_string {t : List UInt8} (ht : t.length < pgSize) (bs : List UInt8) :
    Grows (push (t ++ [0])) bs (t ++ 0 :: bs) () ((t ++ 0 :: bs).length ≤ pgSize) := by
  have hpush : Grows (push (t ++ [0])) bs ((t ++ [0]) ++ bs) () _ := grows_push (by simp)
    (by rw [List.length_append, List.length_singleton]; omega)
  rwa [List.append_assoc, List.singleton_append] at hpush

theorem length_le32 (v : Nat) : (le32 v).length = 4 := rfl

theorem grows_pushWord (v : Nat → Nat) (bs : List UInt8) :
    Grows (pushWord v) bs (le32 (v (physBase - bs.length - 4)) ++ bs) ()
      ((le32 (v (physBase - bs.length - 4)) ++ bs).length ≤ pgSize) := by
  refine grows_lower (List.cons_ne_nil _ _) (by rw [length_le32, pgSize_eq]; decide) fun m hm => ?_
  rw [pushWord, Exec.run_bind (hm.lower (by rw [pgSize_eq]; decide)), ← top, ← hm.esp_eq]
  rfl

/-! ## The parts of `setup_stack` -/

/-- The image after the strings of the tokens. -/
def strings (bs : List UInt8) : List (List UInt8) → List UInt8
  | [] => bs
  | t :: ts => strings (t ++ 0 :: bs) ts

/-- The places of the strings. -/
def places (bs : List UInt8) : List (List UInt8) → List Nat
  | [] => []
  | t :: ts => top (t ++ 0 :: bs) :: places (t ++ 0 :: bs) ts

theorem length_strings (ts : List (List UInt8)) (bs : List UInt8) :
    (strings bs ts).length = bs.length + (ts.map fun t => t.length + 1).sum := by
  induction ts generalizing bs with
  | nil => rfl
  | cons t ts ih =>
    rw [strings, ih, List.length_append, List.length_cons, List.map_cons, List.sum_cons]
    omega

theorem length_places (ts : List (List UInt8)) (bs : List UInt8) :
    (places bs ts).length = ts.length := by
  induction ts generalizing bs with
  | nil => rfl
  | cons t ts ih => rw [places, List.length_cons, ih, List.length_cons]

/-- The image after words, the first of them written last. -/
def words (bs : List UInt8) (ws : List Nat) : List UInt8 := ws.flatMap le32 ++ bs

/-- The padding. -/
def padding (bs : List UInt8) : List UInt8 := List.replicate ((4 - bs.length % 4) % 4) 0 ++ bs

/-- The tokens of a command line. -/
abbrev argTokens (s : List UInt8) : List (List UInt8) := tokens (· ∈ delimiters) s

/-- What the image becomes matters only if it fits. -/
theorem Grows.of_fits {x : Code α} (h : Grows x bs bs' a fits) (hbs : fits → bs' = bs'') :
    Grows x bs bs'' a fits where
  ok m hm hfits := by
    rw [← hbs hfits]
    exact h.ok m hm hfits
  out := h.out

theorem grows_vacuous {x : Code α} (h : pgSize < bs.length) : Grows x bs bs' a fits where
  ok _ hm _ := absurd hm.fits (Nat.not_le.mpr h)
  out _ hm _ := absurd hm.fits (Nat.not_le.mpr h)

theorem grows_pushArgs (fuel : Nat) : ∀ {buf rest : List UInt8} {save : Nat} {argvs : List Nat}
    {bs : List UInt8}, Holds buf save rest → rest.length < fuel →
    (∀ t ∈ argTokens rest, t.length < pgSize) → argvs.length ≤ 128 →
    Grows (pushArgs fuel buf save argvs) bs (strings bs (argTokens rest))
      (argvs ++ places bs (argTokens rest))
      (argvs.length + (argTokens rest).length ≤ 128 ∧
        (strings bs (argTokens rest)).length ≤ pgSize) := by
  induction fuel with
  | zero => exact fun _ h => absurd h (Nat.not_lt_zero _)
  | succ fuel ih =>
    intro buf rest save argvs bs hbuf hfuel hpage hcount
    rw [pushArgs]
    generalize hr : strtokR delimiters buf save = r
    have hspec : Strtok delimiters save rest r := hr ▸ strtokR_spec (by decide) hbuf
    cases hspec with
    | none htokens =>
      dsimp only
      by_cases hbs : bs.length ≤ pgSize
      · have htokens : argTokens rest = [] := htokens
        rw [htokens, places, List.append_nil, strings]
        exact (grows_pure argvs bs).congr (iff_of_true ⟨hcount, hbs⟩ trivial)
      · exact grows_vacuous (Nat.not_le.mp hbs)
    | @some buf' save' t rest' htokens hless hshort htoken hsaved =>
      have htokens : argTokens rest = t :: argTokens rest' := htokens
      rw [htokens] at hpage
      have hpush := grows_string (hpage t List.mem_cons_self) bs
      have hlength := length_strings (argTokens rest') (t ++ 0 :: bs)
      dsimp only
      rw [htoken.cstring_eq, htokens, strings, places, List.length_cons]
      have hnext : Grows (if argvs.length < 128 then
            pushArgs fuel buf' save' (argvs ++ [top (t ++ 0 :: bs)]) else Exec.throw .overrun)
          (t ++ 0 :: bs) (strings (t ++ 0 :: bs) (argTokens rest'))
          (argvs ++ top (t ++ 0 :: bs) :: places (t ++ 0 :: bs) (argTokens rest'))
          (argvs.length + 1 + (argTokens rest').length ≤ 128 ∧
            (strings (t ++ 0 :: bs) (argTokens rest')).length ≤ pgSize) := by
        split
        · have hrest : Grows (pushArgs fuel buf' save' (argvs ++ [top (t ++ 0 :: bs)]))
              (t ++ 0 :: bs) _ _ _ := ih hsaved (by omega)
            (fun t' ht' => hpage t' (List.mem_cons_of_mem _ ht'))
            (by rw [List.length_append, List.length_singleton]; omega)
          rw [List.append_assoc, List.singleton_append, List.length_append,
            List.length_singleton] at hrest
          exact hrest
        · exact ⟨fun _ _ h => by omega, fun _ _ _ => ⟨_, rfl, by simp⟩⟩
      exact (hpush.bind (.esp hnext)).congr (by omega)

theorem grows_align (k : Nat) : ∀ {fuel : Nat} {bs : List UInt8}, k ≤ fuel →
    (bs.length + k) % 4 = 0 → k < 4 →
    Grows (align fuel) bs (List.replicate k 0 ++ bs) () (k + bs.length ≤ pgSize) := by
  have hbase := physBase_mod
  have hadd := stackPage_add
  induction k with
  | zero =>
    intro fuel bs _ hmod _
    rw [List.replicate_zero, List.nil_append, Nat.zero_add]
    by_cases hbs : bs.length ≤ pgSize
    · have hdone : Grows (align fuel) bs bs () True := by
        cases fuel with
        | zero => exact grows_pure () bs
        | succ fuel =>
          have halign : ¬ top bs % 4 ≠ 0 := by
            unfold top
            omega
          rw [align]
          refine .esp ?_
          rw [if_neg halign]
          exact grows_pure () bs
      exact hdone.congr (iff_of_true hbs trivial)
    · exact grows_vacuous (Nat.not_le.mp hbs)
  | succ k ih =>
    intro fuel bs hfuel hmod hk
    by_cases hbs : bs.length ≤ pgSize
    · cases fuel with
      | zero => cases hfuel
      | succ fuel =>
        have halign : top bs % 4 ≠ 0 := by
          unfold top
          omega
        have hrest : Grows (align fuel) (0 :: bs) _ () _ := ih (Nat.le_of_succ_le_succ hfuel)
          (by rw [List.length_cons]; omega) (by omega)
        have himage : List.replicate k 0 ++ 0 :: bs = List.replicate (k + 1) 0 ++ bs := by
          rw [List.replicate_succ', List.append_assoc]
          rfl
        rw [himage] at hrest
        have hpush : Grows (push [0]) bs ([0] ++ bs) () _ :=
          grows_push (by simp) (by rw [pgSize_eq]; decide)
        have hstep := hpush.bind (f := fun _ => align fuel) hrest
        rw [align]
        refine .esp ?_
        rw [if_pos halign]
        refine hstep.congr ?_
        simp only [List.length_append, List.length_cons, List.length_nil]
        omega
    · exact grows_vacuous (Nat.not_le.mp hbs)

theorem grows_padding (bs : List UInt8) :
    Grows (align 4) bs (padding bs) () ((padding bs).length ≤ pgSize) := by
  rw [padding, List.length_append, List.length_replicate]
  exact grows_align _ (by omega) (by omega) (by omega)

theorem length_words (bs : List UInt8) (ws : List Nat) :
    (words bs ws).length = 4 * ws.length + bs.length := by
  have hflat : (ws.flatMap le32).length = 4 * ws.length := by
    induction ws with
    | nil => rfl
    | cons w ws ih =>
      rw [List.flatMap_cons, List.length_append, ih, length_le32, List.length_cons]
      omega
  rw [words, List.length_append, hflat]

theorem words_append (bs : List UInt8) (ws ws' : List Nat) :
    words bs (ws ++ ws') = words (words bs ws') ws := by
  rw [words, words, words, List.flatMap_append, List.append_assoc]

theorem grows_pushAddresses (ws : List Nat) : ∀ bs : List UInt8,
    Grows (pushAddresses ws) bs (words bs ws.reverse) ()
      ((words bs ws.reverse).length ≤ pgSize) := by
  induction ws with
  | nil =>
    intro bs
    by_cases hbs : bs.length ≤ pgSize
    · exact (grows_pure () bs).congr (iff_of_true hbs trivial)
    · exact grows_vacuous (Nat.not_le.mp hbs)
  | cons w ws ih =>
    intro bs
    have hstep := (grows_pushWord (fun _ => w) bs).bind (f := fun _ => pushAddresses ws)
      (ih (le32 w ++ bs))
    have himage : words (le32 w ++ bs) ws.reverse = words bs (w :: ws).reverse := by
      rw [List.reverse_cons, words_append]
      simp [words]
    rw [himage] at hstep
    rw [pushAddresses]
    refine hstep.congr ?_
    rw [length_words, List.length_append, length_le32, List.length_reverse, List.length_cons]
    omega

/-! ## The whole -/

/-- What `setup_stack` leaves in the page for the tokens of a command line. -/
def frame (ts : List (List UInt8)) : List UInt8 :=
  let argv := words (padding (strings [] ts)) (places [] ts ++ [0])
  words argv [0, ts.length, top argv]

/-- The room that the strings, the padding, the pointers and the three words in front need. -/
def argsSize (ts : List (List UInt8)) : Nat :=
  let chars := (ts.map fun t => t.length + 1).sum
  chars + (4 - chars % 4) % 4 + 4 * (ts.length + 1) + 12

/-- The arguments fit into `argvs` and into a page. -/
structure Fits (ts : List (List UInt8)) : Prop where
  count : ts.length ≤ 128
  size : argsSize ts ≤ pgSize

/-- Arguments that fit are shorter than a page. -/
theorem Fits.short (h : Fits ts) : ∀ t ∈ ts, t.length < pgSize := by
  intro t ht
  have hsize := h.size
  have hle : t.length + 1 ≤ (ts.map fun t => t.length + 1).sum :=
    List.le_sum_of_mem (List.mem_map_of_mem ht)
  simp only [argsSize] at hsize
  omega

theorem length_padding (bs : List UInt8) :
    (padding bs).length = (4 - bs.length % 4) % 4 + bs.length := by
  rw [padding, List.length_append, List.length_replicate]

theorem length_frame (ts : List (List UInt8)) : (frame ts).length = argsSize ts := by
  simp only [frame, argsSize, length_words, length_padding, length_strings, List.length_append,
    length_places, List.length_cons, List.length_nil, Nat.zero_add]
  omega

theorem grows_word {v : Nat → Nat} {w : Nat}
    (hv : bs.length + 4 ≤ physBase → v (physBase - bs.length - 4) = w) :
    Grows (pushWord v) bs (words bs [w]) () (bs.length + 4 ≤ pgSize) := by
  have hadd := stackPage_add
  refine ((grows_pushWord v bs).of_fits fun hfits => ?_).congr ?_
  · rw [List.length_append, length_le32] at hfits
    rw [hv (by omega)]
    simp [words]
  · rw [List.length_append, length_le32]
    omega

/-- What `setup_stack` does after the strings. -/
theorem grows_rest (argvs : List Nat) (n : Nat) (bs : List UInt8) :
    Grows (do
      align 4
      pushWord fun _ => 0
      pushAddresses argvs.reverse
      pushWord fun esp => esp + 4
      pushWord fun _ => n
      pushWord fun _ => 0
      return true) bs
      (words (words (padding bs) (argvs ++ [0])) [0, n, top (words (padding bs) (argvs ++ [0]))])
      true ((padding bs).length + 4 * (argvs.length + 1) + 12 ≤ pgSize) := by
  have hnull : Grows (pushWord fun _ => 0) (padding bs) (words (padding bs) [0]) () _ :=
    grows_word fun _ => rfl
  have hargv := grows_pushAddresses argvs.reverse (words (padding bs) [0])
  rw [List.reverse_reverse, ← words_append] at hargv
  generalize hA : words (padding bs) (argvs ++ [0]) = A at *
  have hlength : A.length = 4 * (argvs.length + 1) + (padding bs).length := by
    rw [← hA, length_words, List.length_append]
    rfl
  have haddress : Grows (pushWord fun esp => esp + 4) A (words A [top A]) () _ :=
    grows_word fun h => by
      unfold top
      omega
  have hcount : Grows (pushWord fun _ => n) (words A [top A]) (words (words A [top A]) [n]) () _ :=
    grows_word fun _ => rfl
  rw [← words_append] at hcount
  have hreturn : Grows (pushWord fun _ => 0) (words A [n, top A])
      (words (words A [n, top A]) [0]) () _ := grows_word fun _ => rfl
  rw [← words_append] at hreturn
  have hall := (grows_padding bs).seq (hnull.seq (hargv.seq (haddress.seq (hcount.seq
    (hreturn.seq (grows_pure true _))))))
  refine hall.congr ?_
  simp only [length_words, List.length_cons, List.length_nil, and_true]
  omega

/-- `setup_stack` with its page installed. -/
def Machine.mapped (m : Machine) : Machine :=
  { m with
    esp := physBase
    mem := fun a => if stackPage ≤ a ∧ a < physBase then 0 else m.mem a }

/-- The copy that is not freed. -/
def Machine.copied (m : Machine) : Machine :=
  { m with live := m.next :: m.live, next := m.next + 1 }

theorem image_mapped (m : Machine) : Image m.mapped.copied [] :=
  ⟨rfl, Nat.zero_le _, fun _ h => absurd h (Nat.not_lt_zero _)⟩

theorem alloc_some (m : Machine) : alloc true m = .ok (some m.next, m.copied) := rfl

/-- `setup_stack` from the copy on. -/
theorem grows_args (hshort : ∀ t ∈ argTokens fileName.bytes, t.length < pgSize)
    (ht : argTokens fileName.bytes ≠ []) (hk : o.kpage = true) (hi : o.installed = true)
    (hc : o.stackCopy = true) :
    ∃ x : Code Bool, (∀ m, setupStack o fileName m = x m.mapped.copied) ∧
      Grows x [] (frame (argTokens fileName.bytes)) true (Fits (argTokens fileName.bytes)) := by
  have hbuf := holds_buffer fileName.nul_free
  generalize hr : strtokR delimiters (fileName.bytes ++ [0]) 0 = r
  have hspec : Strtok delimiters 0 fileName.bytes r := hr ▸ strtokR_spec (by decide) hbuf
  cases hspec with
  | none htokens => exact absurd htokens ht
  | @some buf save t rest htokens hless _ htoken hsaved =>
    have htokens : argTokens fileName.bytes = t :: argTokens rest := htokens
    rw [htokens] at hshort ⊢
    have hname := grows_string (hshort t List.mem_cons_self) []
    have hargs :
        Grows (pushArgs fileName.bytes.length buf save [top (t ++ [0])]) (t ++ [0]) _ _ _ :=
      grows_pushArgs _ hsaved hless (fun t' ht' => hshort t' (List.mem_cons_of_mem _ ht'))
        (Nat.succ_le_succ (Nat.zero_le _))
    have hrun := hname.seq (.esp (f := fun esp => do
      let argvs ← pushArgs fileName.bytes.length buf save [esp]
      align 4
      pushWord fun _ => 0
      pushAddresses argvs.reverse
      pushWord fun esp => esp + 4
      pushWord fun _ => argvs.length
      pushWord fun _ => 0
      return true) (hargs.bind (grows_rest _ _ _)))
    have hcount : ([top (t ++ [0])] ++ places (t ++ [0]) (argTokens rest)).length =
        (t :: argTokens rest).length := by
      rw [List.length_append, length_places]
      exact Nat.add_comm _ _
    rw [hcount] at hrun
    refine ⟨_, fun m => ?_, hrun.congr ?_⟩
    · rw [setupStack, hk, hi, hc, hr]
      dsimp only
      rw [htoken.cstring_eq]
      rfl
    · have hsize := length_frame (t :: argTokens rest)
      have hchars := length_strings (argTokens rest) (t ++ [0])
      have hfirst : (t ++ [0]).length = t.length + 1 := List.length_append
      have hall : (frame (t :: argTokens rest)).length =
          (padding (strings (t ++ [0]) (argTokens rest))).length +
            4 * ((t :: argTokens rest).length + 1) + 12 := by
        simp only [frame, strings, places, length_words, List.length_append, length_places,
          List.length_cons, List.length_nil]
        omega
      have hpadding := length_padding (strings (t ++ [0]) (argTokens rest))
      refine ⟨fun h => ?_, fun h => ⟨?_, ?_⟩⟩
      · have hc := h.count
        have hs := h.size
        rw [List.length_cons] at hc
        simp only [List.length_append, length_places, List.length_cons, List.length_nil] at *
        omega
      · rw [List.length_cons, Nat.add_comm]
        exact h.2.1.1
      · rw [← hsize, hall]
        simpa only [List.length_append, length_places, List.length_singleton, List.length_cons,
          Nat.add_comm] using h.2.2

/-! ## What the process finds -/

/-- The memory has bytes at an address. -/
def Machine.Has (m : Machine) (addr : Nat) (bs : List UInt8) : Prop :=
  ∀ i < bs.length, m.mem (addr + i) = bs.getD i 0

/-- The word at an address. -/
def Machine.word (m : Machine) (addr : Nat) : Nat := Bytes.leNat fun k => m.mem (addr + k)

/-- `argv[i]`, from the arguments of `main`. -/
def Machine.argv (m : Machine) (i : Nat) : Nat := m.word (m.word (m.esp + 8) + 4 * i)

/-- The stack of a process with the arguments `ts`. -/
structure ArgsLayout (m : Machine) (ts : List (List UInt8)) : Prop where
  aligned : m.esp % 4 = 0
  inside : stackPage ≤ m.esp
  returnAddress : m.word m.esp = 0
  argc : m.word (m.esp + 4) = ts.length
  argv : m.word (m.esp + 8) = m.esp + 12
  /-- Each string is a copy in the page of the stack, above the pointers. -/
  string : ∀ i t, ts[i]? = some t → m.Has (m.argv i) (t ++ [0]) ∧
    m.esp + 12 + 4 * (ts.length + 1) ≤ m.argv i ∧ m.argv i + (t.length + 1) ≤ physBase
  null : m.argv ts.length = 0
  /-- A string is below those before it. -/
  apart : ∀ i j t t', i < j → ts[i]? = some t → ts[j]? = some t' →
    m.argv j + (t'.length + 1) ≤ m.argv i

section

variable {addr : Nat} {xs ys : List UInt8} {ws : List Nat}

theorem Machine.Has.left (h : m.Has addr (xs ++ ys)) : m.Has addr xs := fun i hi => by
  rw [h i (by rw [List.length_append]; omega), List.getD_append _ _ _ _ hi]

theorem Machine.Has.right (h : m.Has addr (xs ++ ys)) : m.Has (addr + xs.length) ys := by
  intro i hi
  rw [Nat.add_assoc, h (xs.length + i) (by rw [List.length_append]; omega),
    List.getD_append_right _ _ _ _ (Nat.le_add_right _ _), Nat.add_sub_cancel_left]

theorem Machine.Has.word_eq {v : Nat} (h : m.Has addr (le32 v)) (hv : v < 2 ^ 32) :
    m.word addr = v := by
  have hbyte : ∀ k < 4, m.mem (addr + k) = Bytes.leByte v k := by
    intro k hk
    rw [h k hk, le32, List.getD_eq_getElem?_getD, List.getElem?_map, List.getElem?_range hk]
    rfl
  have hword : m.word addr = Bytes.leNat (Bytes.leByte v) := by
    simp only [Machine.word, Bytes.leNat, hbyte 0 (by decide), hbyte 1 (by decide),
      hbyte 2 (by decide), hbyte 3 (by decide)]
  rw [hword, Bytes.leNat_leByte hv]

/-- The words of an image, and what is above them. -/
theorem Machine.Has.words (h : m.Has addr (words bs ws)) :
    (∀ i w, ws[i]? = some w → w < 2 ^ 32 → m.word (addr + 4 * i) = w) ∧
      m.Has (addr + 4 * ws.length) bs := by
  induction ws generalizing addr with
  | nil => exact ⟨fun _ _ hi => by simp at hi, h⟩
  | cons w ws ih =>
    have hcons : Args.words bs (w :: ws) = le32 w ++ Args.words bs ws := by
      rw [Args.words, Args.words, List.flatMap_cons, List.append_assoc]
    rw [hcons] at h
    obtain ⟨hwords, hbs⟩ := ih h.right
    rw [length_le32] at hwords hbs
    refine ⟨fun i w' hi hw => ?_, ?_⟩
    · cases i with
      | zero =>
        obtain rfl : w = w' := by simpa using hi
        exact h.left.word_eq hw
      | succ i =>
        rw [← hwords i w' (by simpa using hi) hw]
        congr 1
        omega
    · have haddr : addr + 4 * (w :: ws).length = addr + 4 + 4 * ws.length := by
        rw [List.length_cons]
        omega
      rw [haddr]
      exact hbs

end

theorem Image.has (h : Image m bs) : m.Has (top bs) bs := h.esp_eq ▸ h.bytes

theorem top_append {xs ys : List UInt8} (h : (xs ++ ys).length ≤ physBase) :
    top (xs ++ ys) + xs.length = top ys := by
  rw [List.length_append] at h
  rw [top, top, List.length_append]
  omega

/-- The strings are put before what there is. -/
theorem strings_suffix (ts : List (List UInt8)) (bs : List UInt8) :
    ∃ pre, strings bs ts = pre ++ bs := by
  induction ts generalizing bs with
  | nil => exact ⟨[], rfl⟩
  | cons t ts ih =>
    obtain ⟨pre, h⟩ := ih (t ++ 0 :: bs)
    exact ⟨pre ++ (t ++ [0]), by rw [strings, h]; simp⟩

/-- What is in front is found first. -/
theorem strings_has (ts : List (List UInt8)) (bs : List UInt8)
    (h : m.Has (top (strings bs ts)) (strings bs ts)) (hle : (strings bs ts).length ≤ physBase) :
    m.Has (top bs) bs ∧ top (strings bs ts) ≤ top bs := by
  obtain ⟨pre, hpre⟩ := strings_suffix ts bs
  rw [hpre] at h hle ⊢
  have htop := top_append hle
  exact ⟨htop ▸ h.right, by omega⟩

/-- Each string is where its place says, below the bytes that were there before. -/
theorem places_has (ts : List (List UInt8)) (bs : List UInt8)
    (h : m.Has (top (strings bs ts)) (strings bs ts)) (hle : (strings bs ts).length ≤ physBase)
    {i : Nat} {t : List UInt8} (ht : ts[i]? = some t) :
    ∃ p, (places bs ts)[i]? = some p ∧ m.Has p (t ++ [0]) ∧ top (strings bs ts) ≤ p ∧
      p + (t.length + 1) ≤ top bs := by
  induction ts generalizing bs i with
  | nil => simp at ht
  | cons t' ts ih =>
    rw [strings] at h hle
    obtain ⟨hhas, hlow⟩ := strings_has ts (t' ++ 0 :: bs) h hle
    have hlength := length_strings ts (t' ++ 0 :: bs)
    have hstring : t' ++ 0 :: bs = (t' ++ [0]) ++ bs := by simp
    have htop : top ((t' ++ [0]) ++ bs) + (t' ++ [0]).length = top bs :=
      top_append (by rw [← hstring]; omega)
    rw [← hstring, List.length_append, List.length_singleton] at htop
    cases i with
    | zero =>
      obtain rfl : t' = t := by simpa using ht
      refine ⟨_, rfl, ?_, hlow, htop.le⟩
      rw [hstring] at hhas ⊢
      exact hhas.left
    | succ i =>
      obtain ⟨p, hp, hstring, hge, hlt⟩ := ih _ h hle (by simpa using ht)
      exact ⟨p, hp, hstring, hge, by omega⟩

/-- A string is below those before it. -/
theorem places_apart (ts : List (List UInt8)) (bs : List UInt8)
    (h : m.Has (top (strings bs ts)) (strings bs ts)) (hle : (strings bs ts).length ≤ physBase)
    {i j p p' : Nat} {t' : List UInt8} (hij : i < j) (hp : (places bs ts)[i]? = some p)
    (hp' : (places bs ts)[j]? = some p') (ht' : ts[j]? = some t') :
    p' + (t'.length + 1) ≤ p := by
  induction ts generalizing bs i j with
  | nil => simp at ht'
  | cons t ts ih =>
    obtain ⟨j, rfl⟩ := Nat.exists_eq_add_of_lt (Nat.zero_lt_of_lt hij)
    rw [Nat.zero_add] at hp' ht' hij
    have hp' : (places (t ++ 0 :: bs) ts)[j]? = some p' := by simpa [places] using hp'
    have ht' : ts[j]? = some t' := by simpa using ht'
    cases i with
    | zero =>
      obtain rfl : top (t ++ 0 :: bs) = p := by simpa [places] using hp
      obtain ⟨q, hq, -, -, hlt⟩ := places_has ts _ h hle ht'
      obtain rfl : q = p' := by simpa [hp'] using hq.symm
      exact hlt
    | succ i => exact ih _ h hle (Nat.lt_of_succ_lt_succ hij) (by simpa [places] using hp) hp' ht'

theorem argsSize_mod (ts : List (List UInt8)) : argsSize ts % 4 = 0 := by
  simp only [argsSize]
  omega

/-- The image is read back. -/
theorem Image.argsLayout (h : Image m (frame ts)) : ArgsLayout m ts := by
  have hbase := physBase_mod
  have hadd := stackPage_add
  have hpage := pgSize_le
  have hword := physBase_lt
  have hesp := h.esp
  have hfits := h.fits
  have hmod := argsSize_mod ts
  have hsize := length_frame ts
  have hhas := h.has
  rw [← h.esp_eq, frame] at hhas
  obtain ⟨hfront, hargv⟩ := hhas.words
  have hargs := hargv.words.1
  have hstrings := hargv.words.2
  rw [padding] at hstrings
  have hstrings := hstrings.right
  have hlength : (frame ts).length = 4 * 3 + (4 * (places [] ts ++ [0]).length +
      ((4 - (strings [] ts).length % 4) % 4 + (strings [] ts).length)) := by
    rw [frame, length_words, length_words, length_padding]
    rfl
  have hcount : (places [] ts ++ [0]).length = ts.length + 1 := by
    rw [List.length_append, length_places]
    rfl
  rw [hcount] at hlength hstrings
  have hargvTop : top (words (padding (strings [] ts)) (places [] ts ++ [0])) = m.esp + 12 := by
    have hA := length_words (padding (strings [] ts)) (places [] ts ++ [0])
    rw [hcount, length_padding] at hA
    rw [top, hA]
    omega
  have htop : m.esp + 4 * 3 + 4 * (ts.length + 1) + ((4 - (strings [] ts).length % 4) % 4) =
      top (strings [] ts) := by
    rw [top]
    omega
  rw [List.length_replicate] at hstrings
  change m.Has (m.esp + 4 * 3 + 4 * (ts.length + 1) + _) _ at hstrings
  rw [htop] at hstrings
  have hle : (strings [] ts).length ≤ physBase := by omega
  -- the pointer to `argv[0]`, through which all of `argv` is read
  have hesp8 : m.word (m.esp + 8) = m.esp + 12 := by
    rw [← hargvTop]
    exact hfront 2 _ rfl (by omega)
  have hplace : ∀ i p, (places [] ts ++ [0])[i]? = some p → p < 2 ^ 32 → m.argv i = p := by
    intro i p hp hlt
    rw [Machine.argv, hesp8]
    exact hargs i p hp hlt
  have hstring : ∀ i t, ts[i]? = some t → (places [] ts)[i]? = some (m.argv i) ∧
      m.Has (m.argv i) (t ++ [0]) ∧ top (strings [] ts) ≤ m.argv i ∧
      m.argv i + (t.length + 1) ≤ physBase := by
    intro i t ht
    obtain ⟨p, hp, hbytes, hge, hlt⟩ := places_has ts [] hstrings hle ht
    have hlt : p + (t.length + 1) ≤ physBase := hlt
    rw [hplace i p (List.getElem?_append_left (List.getElem?_eq_some_iff.mp hp).1 ▸ hp) (by omega)]
    exact ⟨hp, hbytes, hge, hlt⟩
  constructor
  case aligned => omega
  case inside => omega
  case returnAddress => exact hfront 0 _ rfl (by decide)
  case argc => exact hfront 1 _ rfl (by omega)
  case argv => exact hesp8
  case string =>
    intro i t ht
    obtain ⟨-, hbytes, hge, hlt⟩ := hstring i t ht
    exact ⟨hbytes, by omega, hlt⟩
  case null =>
    refine hplace _ 0 ?_ (by decide)
    rw [← length_places ts [], List.getElem?_concat_length]
  case apart =>
    intro i j t t' hij ht ht'
    exact places_apart ts [] hstrings hle hij (hstring i t ht).1 (hstring j t' ht').1 ht'

/-- **Argument stack layout.** A command line whose arguments fit into the page of the stack is
found there as `argc`, `argv` and the strings, and nothing else is written. -/
theorem setup_stack_layout (hk : o.kpage = true) (hi : o.installed = true)
    (hc : o.stackCopy = true) (ht : argTokens fileName.bytes ≠ [])
    (hfits : Fits (argTokens fileName.bytes)) (m : Machine) :
    ∃ m', setupStack o fileName m = .ok (true, m') ∧
      ArgsLayout m' (argTokens fileName.bytes) ∧
      ∀ a, a < stackPage ∨ physBase ≤ a → m'.mem a = m.mem a := by
  obtain ⟨x, hx, hgrows⟩ := grows_args hfits.short ht hk hi hc
  obtain ⟨m', hrun, himage, hkept⟩ := hgrows.ok _ (image_mapped m) hfits
  refine ⟨m', (hx m).trans hrun, himage.argsLayout, fun a ha => ?_⟩
  have hout : ¬ (stackPage ≤ a ∧ a < physBase) := by omega
  rw [hkept.mem a ha]
  exact if_neg hout

/-- All that is asked for is granted. -/
def granted : Outcomes where
  fnCopy := true
  programName := true
  thread := true
  child := true
  pagedir := true
  loadCopy := true
  opens _ := true
  segments := true
  kpage := true
  installed := true
  stackCopy := true

/-- Nothing is in use. -/
def unused : Machine where
  live := []
  next := 0
  esp := 0
  mem _ := 0
  name := none
  executable := none
  loadState := none

/-- `echo x y`. -/
def echo : CString := ⟨[101, 99, 104, 111, 32, 120, 32, 121], by decide⟩

theorem fits_echo : Fits (argTokens echo.bytes) := ⟨by decide +kernel, by decide +kernel⟩

theorem setup_stack_layout_echo : ∃ m', setupStack granted echo unused = .ok (true, m') ∧
    ArgsLayout m' [[101, 99, 104, 111], [120], [121]] ∧
    ∀ a, a < stackPage ∨ physBase ≤ a → m'.mem a = unused.mem a :=
  setup_stack_layout rfl rfl rfl (by decide) fits_echo unused

/-! ## Bounds -/

/-- What is asked of `setup_stack` at the beginning of `start_process`. -/
structure Contained (o : Outcomes) (fileName : CString) (m : Machine) : Prop where
  /-- No write goes outside the page or past the end of `argvs`. -/
  bounds : ∀ e, setupStack o fileName { m with esp := 0 } = .error e → e = .assertion
  /-- Without the page, and if the arguments do not fit, it returns false and writes nothing. -/
  clean : ¬ (o.kpage = true ∧ o.installed = true ∧ Fits (argTokens fileName.bytes)) →
    ∃ m', setupStack o fileName { m with esp := 0 } = .ok (false, m') ∧ m'.mem = m.mem
  /-- And the failure is reported if `load` gets that far. -/
  reported : ¬ (o.kpage = true ∧ o.installed = true ∧ Fits (argTokens fileName.bytes)) →
    o.pagedir = true → o.loadCopy = true → (∀ name, o.opens name = true) → o.segments = true →
    ∀ page ∈ m.live, ∃ m', startProcess o page fileName m = .ok ((), m') ∧
      m'.loadState = some false

/-- From 0 on the stack grows into the end of the address space. -/
theorem push_zero {t : List UInt8} (ht : t.length < pgSize) (hesp : m.esp = 0) :
    push (t ++ [0]) m = .error .outside := by
  have hadd := stackPage_add
  have hroom := physBase_add_le
  have hlength : (t ++ [0]).length = t.length + 1 := List.length_append
  obtain ⟨c, bs, hcons⟩ := List.exists_cons_of_ne_nil (show t ++ [0] ≠ [] by simp)
  have hlower : lower (t ++ [0]).length m =
      .ok ((), { m with esp := m.esp + 2 ^ 32 - (t ++ [0]).length }) := by
    rw [lower, Exec.modify, if_neg]
    omega
  have hout : m.esp + 2 ^ 32 - (t ++ [0]).length < stackPage ∨
      physBase ≤ m.esp + 2 ^ 32 - (t ++ [0]).length := by omega
  rw [push, Exec.run_bind hlower, Exec.run_bind (a := m.esp + 2 ^ 32 - (t ++ [0]).length) rfl]
  generalize m.esp + 2 ^ 32 - (t ++ [0]).length = addr at hout ⊢
  rw [hcons]
  exact storeBytes_outside hout

/-- Without the page the first string is written there. -/
theorem setupStack_unmapped (hlen : fileName.bytes.length < pgSize)
    (h : (o.kpage && o.installed) = false) (hesp : m.esp = 0) :
    ∃ e, setupStack o fileName m = .error e := by
  rw [setupStack, h, if_neg Bool.false_ne_true]
  cases o.stackCopy with
  | false => exact ⟨.assertion, rfl⟩
  | true =>
    dsimp only
    rw [Exec.run_bind (alloc_some m)]
    have hspec := strtokR_spec (show 0 ∉ delimiters by decide)
      (holds_buffer fileName.nul_free)
    generalize strtokR delimiters (fileName.bytes ++ [0]) 0 = r at hspec ⊢
    cases hspec with
    | none _ => exact ⟨.assertion, rfl⟩
    | @some buf save t rest _ _ hshort htoken _ =>
      dsimp only
      rw [htoken.cstring_eq]
      exact ⟨.outside, Exec.run_bind_error (push_zero (by omega) hesp)⟩

/-- A failed allocation of the copy is noticed by an assertion. -/
theorem setupStack_uncopied (hc : o.stackCopy = false) (m : Machine) :
    setupStack o fileName m = .error .assertion := by
  rw [setupStack, hc]
  cases o.kpage && o.installed <;> rfl

/-- So is a command line without arguments. -/
theorem setupStack_empty (ht : argTokens fileName.bytes = []) (hc : o.stackCopy = true)
    (m : Machine) : setupStack o fileName m = .error .assertion := by
  have hspec := strtokR_spec (show 0 ∉ delimiters by decide) (holds_buffer fileName.nul_free)
  rw [setupStack, hc]
  generalize strtokR delimiters (fileName.bytes ++ [0]) 0 = r at hspec ⊢
  cases hspec with
  | none _ => cases o.kpage && o.installed <;> rfl
  | some htokens => exact absurd (ht.symm.trans htokens) (List.cons_ne_nil _ _).symm

theorem short_tokens {s : List UInt8} (h : s.length < pgSize) :
    ∀ t ∈ argTokens s, t.length < pgSize :=
  fun _ ht => Nat.lt_of_le_of_lt (length_le_of_mem_tokens ht) h

/-- The two ways `setup_stack` goes in `start_process`. -/
theorem setupStack_runs (hlen : fileName.bytes.length < pgSize) (hesp : m.esp = 0) :
    (∃ m', setupStack o fileName m = .ok (true, m') ∧
      (o.kpage = true ∧ o.installed = true ∧ Fits (argTokens fileName.bytes)) ∧
      Kept m.mapped.copied m') ∨
    ∃ e, setupStack o fileName m = .error e ∧
      (o.kpage = true → o.installed = true → Fits (argTokens fileName.bytes) → e = .assertion) := by
  cases hmapped : o.kpage && o.installed with
  | false =>
    obtain ⟨e, he⟩ := setupStack_unmapped hlen hmapped hesp
    exact .inr ⟨e, he, fun hk hi => by rw [hk, hi] at hmapped; cases hmapped⟩
  | true =>
    obtain ⟨hk, hi⟩ := Bool.and_eq_true_iff.mp hmapped
    cases hc : o.stackCopy with
    | false => exact .inr ⟨_, setupStack_uncopied hc m, fun _ _ _ => rfl⟩
    | true =>
      by_cases ht : argTokens fileName.bytes = []
      · exact .inr ⟨_, setupStack_empty ht hc m, fun _ _ _ => rfl⟩
      · obtain ⟨x, hx, hgrows⟩ := grows_args (short_tokens hlen) ht hk hi hc
        by_cases hfits : Fits (argTokens fileName.bytes)
        · obtain ⟨m', hrun, -, hkept⟩ := hgrows.ok _ (image_mapped m) hfits
          exact .inl ⟨m', (hx m).trans hrun, ⟨hk, hi, hfits⟩, hkept⟩
        · obtain ⟨e, he, -⟩ := hgrows.out _ (image_mapped m) hfits
          exact .inr ⟨e, (hx m).trans he, fun _ _ h => absurd h hfits⟩

/-- **`setup_stack` keeps to its bounds and fails cleanly** if and only if it gets its page and the
arguments fit. -/
theorem contained_iff (hlen : fileName.bytes.length < pgSize) (m : Machine) :
    Contained o fileName m ↔
      o.kpage = true ∧ o.installed = true ∧ Fits (argTokens fileName.bytes) := by
  constructor
  · intro h
    by_contra hnot
    obtain ⟨m', hrun, -⟩ := h.clean hnot
    obtain ⟨m'', hrun', henough, -⟩ | ⟨e, he, -⟩ :=
      setupStack_runs (m := { m with esp := 0 }) (o := o) hlen rfl
    · exact hnot henough
    · rw [he] at hrun
      cases hrun
  · intro h
    refine ⟨fun e he => ?_, fun hnot => absurd h hnot, fun hnot => absurd h hnot⟩
    obtain ⟨m', hrun, -⟩ | ⟨e', he', hassertion⟩ :=
      setupStack_runs (m := { m with esp := 0 }) (o := o) hlen rfl
    · rw [hrun] at he
      cases he
    · rw [he'] at he
      cases he
      exact hassertion h.1 h.2.1 h.2.2

theorem contained_echo : Contained granted echo unused :=
  (contained_iff (by decide +kernel) unused).mpr ⟨rfl, rfl, fits_echo⟩

/-- 129 arguments of one letter. -/
def letters : CString := ⟨(List.replicate 129 [120, 32]).flatten, by decide +kernel⟩

theorem not_contained : ¬ Contained { granted with kpage := false } echo unused ∧
    ¬ Contained granted letters unused := by
  refine ⟨fun h => ?_, fun h => ?_⟩
  · obtain ⟨m', hrun, -⟩ := h.clean fun hfits => Bool.false_ne_true hfits.1
    have hfail : ∃ e, setupStack { granted with kpage := false } echo { unused with esp := 0 } =
        .error e := setupStack_unmapped (by decide +kernel) rfl rfl
    obtain ⟨e, he⟩ := hfail
    rw [he] at hrun
    cases hrun
  · have hcount : 128 < (argTokens letters.bytes).length := by decide +kernel
    have hnot : ¬ Fits (argTokens letters.bytes) := fun hfits =>
      absurd hfits.count (Nat.not_le.mpr hcount)
    obtain ⟨m', hrun, -⟩ := h.clean fun hfits => hnot hfits.2.2
    have hlen : letters.bytes.length < pgSize := by decide +kernel
    obtain ⟨m'', -, henough, -⟩ | ⟨e, he, -⟩ :=
      setupStack_runs (m := { unused with esp := 0 }) (o := granted) hlen rfl
    · exact hnot henough.2.2
    · rw [he] at hrun
      cases hrun

end Pintos.Args

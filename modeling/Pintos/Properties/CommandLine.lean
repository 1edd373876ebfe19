import Pintos.Properties.Args

/-!
# Executing a command line

`process_execute` and `load` free what `strtok_r` returns, which is their copy of the command line
only if the first token is at its beginning; `setup_stack` does not free its copy at all.

* `exec_safe_iff` — the command lines and outcomes for which nothing goes wrong.
-/

namespace Pintos.Args

open Pintos.Logic Pintos.Lib Pintos.Userprog

variable {m m' : Machine} {o : Outcomes} {cmdLine fileName : CString} {tid : Int}

/-- Pages and blocks are numbered in the order of their allocation. -/
def Machine.Numbered (m : Machine) : Prop := ∀ b ∈ m.live, b < m.next

/-- What is asked of `exec`. -/
def Safe (o : Outcomes) (tid : Int) (cmdLine : CString) (m : Machine) : Prop :=
  ∃ result m', exec o tid cmdLine m = .ok (some result, m') ∧
    -- All copies are freed.
    m'.live = m.live ∧
    -- Thread and executable are named by the first token.
    (∃ name rest, argTokens (pageCopy cmdLine).bytes = name :: rest ∧
      m'.name = some (name.take 15) ∧ (o.pagedir = true → m'.executable = some name)) ∧
    (m'.loadState = some true ∨ result = -1)

/-- The command line begins with its first token. -/
def Leads (s : List UInt8) : Prop := ∃ c ∈ s.head?, c ∉ delimiters

/-- `process_execute` gets all it needs for a new thread. -/
structure Accepts (o : Outcomes) (cmdLine : CString) : Prop where
  leads : Leads cmdLine.bytes
  fnCopy : o.fnCopy = true
  programName : o.programName = true
  thread : o.thread = true

/-- `load` stops before it sets up the stack. -/
def LoadStops (o : Outcomes) (fileName : CString) : Prop :=
  o.pagedir = false ∨ o.loadCopy = true ∧ ∀ name rest,
    argTokens fileName.bytes = name :: rest → (o.opens name && o.segments) = false

/-! ## Copies -/

theorem length_pageCopy (s : CString) : (pageCopy s).bytes.length < pgSize := by
  have hlen : (pageCopy s).bytes.length ≤ pgSize - 1 := List.length_take_le _ _
  have hpage := pgSize_eq
  omega

theorem leads_pageCopy (s : CString) : Leads (pageCopy s).bytes ↔ Leads s.bytes := by
  have hhead : (pageCopy s).bytes.head? = s.bytes.head? := by
    change (s.bytes.take (pgSize - 1)).head? = _
    rw [List.head?_take, if_neg (by rw [pgSize_eq]; decide)]
  rw [Leads, hhead, Leads]

/-- The first call of `strtok_r`. -/
theorem strtokR_first (s : CString) :
    (argTokens s.bytes = [] ∧ (strtokR delimiters (s.bytes ++ [0]) 0).1 = none) ∨
    ∃ token name rest, argTokens s.bytes = name :: rest ∧
      (strtokR delimiters (s.bytes ++ [0]) 0).1 = some token ∧
      cstring (strtokR delimiters (s.bytes ++ [0]) 0).2.1 token = name ∧
      (token = 0 ↔ Leads s.bytes) := by
  have hspec := strtokR_spec (show 0 ∉ delimiters by decide) (holds_buffer s.nul_free)
  generalize strtokR delimiters (s.bytes ++ [0]) 0 = r at hspec ⊢
  cases hspec with
  | none htokens => exact .inl ⟨htokens, rfl⟩
  | @some buf save t rest htokens _ _ htoken _ =>
    refine .inr ⟨_, t, _, htokens, rfl, htoken.cstring_eq, ?_⟩
    rw [Nat.zero_add, List.length_eq_zero_iff, Leads]
    cases hs : s.bytes with
    | nil =>
      rw [hs] at htokens
      cases htokens
    | cons c _ => simp [List.takeWhile_cons]

/-! ## `process_execute` -/

/-- What `process_execute` leaves to the new thread. -/
def Machine.forked (m : Machine) (name : List UInt8) : Machine :=
  { m with live := m.next :: m.live, next := m.next + 2, name := some (name.take 15) }

theorem release_head (m : Machine) (b : Nat) (bs : List Nat) :
    release (some (b, 0)) { m with live := b :: bs } = .ok ((), { m with live := bs }) := by
  rw [release, Exec.run_bind (a := b :: bs) rfl, if_pos ⟨rfl, List.mem_cons_self⟩]
  simp only [Exec.modify, List.erase_cons_head]

theorem processExecute_accepts (m : Machine) (tid : Int) {name : List UInt8}
    {rest : List (List UInt8)} (h : Accepts o cmdLine)
    (hname : argTokens (pageCopy cmdLine).bytes = name :: rest) :
    processExecute o tid cmdLine m = if o.child = true then
        .ok ((tid, some (m.next, pageCopy cmdLine)), m.forked name)
      else .ok ((tidError, some (m.next, pageCopy cmdLine)),
        { m.forked name with live := m.live }) := by
  obtain ⟨hnone, -⟩ | ⟨token, name', rest', htokens, htoken, hstring, hzero⟩ :=
    strtokR_first (pageCopy cmdLine)
  · rw [hname] at hnone
    cases hnone
  · obtain ⟨rfl, -⟩ := List.cons.inj (hname.symm.trans htokens)
    obtain rfl := hzero.mpr ((leads_pageCopy cmdLine).mpr h.leads)
    rw [processExecute, h.fnCopy, Exec.run_bind (alloc_some m)]
    dsimp only
    rw [h.programName, Exec.run_bind (alloc_some m.copied)]
    dsimp only
    have hcreate : threadCreate o (some name) m.copied.copied =
        .ok (true, { m.copied.copied with name := some (name.take 15) }) := by
      rw [threadCreate, h.thread]
      rfl
    have hfree : release (some (m.copied.next, 0))
        { m.copied.copied with name := some (name.take 15) } = .ok ((), m.forked name) :=
      release_head { m.copied.copied with name := some (name.take 15) } _ _
    have hfree' : release (some (m.next, 0)) (m.forked name) =
        .ok ((), { m.forked name with live := m.live }) := release_head (m.forked name) _ _
    rw [htoken, Option.map_some, Option.map_some, hstring, Exec.run_bind hcreate,
      Exec.run_bind hfree, Bool.not_true, if_neg Bool.false_ne_true]
    cases o.child with
    | false =>
      rw [if_neg Bool.false_ne_true, Exec.run_bind hfree', if_neg Bool.false_ne_true]
      rfl
    | true =>
      rw [if_pos rfl, if_pos rfl]
      rfl

theorem alloc_false {β : Type} (f : Option Nat → Code β) : (alloc false >>= f) = f none := rfl

/-- Without a thread, or without a token at the beginning, nothing is left to a new thread. -/
theorem threadCreate_rejects {β : Type} {f : Code β} {g : Unit → Code β} {P : β → Prop}
    (h : o.thread = true → ¬ Leads fileName.bytes) (hf : Exec.Returns f P) (page : Nat) :
    Exec.Returns (do
      let created ← threadCreate o ((strtokR delimiters (fileName.bytes ++ [0]) 0).1.map
        (cstring (strtokR delimiters (fileName.bytes ++ [0]) 0).2.1))
      let u ← release ((strtokR delimiters (fileName.bytes ++ [0]) 0).1.map
        fun token => (page, token))
      if !created then f else g u) P := by
  cases hthread : o.thread with
  | false =>
    have hcreate : ∀ name, threadCreate o name = pure false := by
      intro name
      rw [threadCreate.eq_def, hthread]
      rfl
    rw [hcreate]
    exact Exec.Returns.bind (x := release _) fun _ => hf
  | true =>
    intro s
    rw [Exec.wp]
    obtain ⟨-, hnone⟩ | ⟨token, name, rest, -, htoken, hstring, hzero⟩ := strtokR_first fileName
    · have hcreate : threadCreate o none s = .error .assertion := by
        rw [threadCreate, hthread]
        rfl
      rw [hnone, Option.map_none, Exec.run_bind_error hcreate]
      trivial
    · have hcreate : threadCreate o (some name) s =
          .ok (true, { s with name := some (name.take 15) }) := by
        rw [threadCreate, hthread]
        rfl
      have hofs : ¬ (token = 0 ∧ page ∈ s.live) := fun h' => h hthread (hzero.mp h'.1)
      have hfree : release (some (page, token)) { s with name := some (name.take 15) } =
          .error .assertion := by
        rw [release, Exec.run_bind (a := s.live) rfl, if_neg hofs]
        rfl
      rw [htoken, Option.map_some, Option.map_some, hstring, Exec.run_bind hcreate,
        Exec.run_bind_error hfree]
      trivial

theorem processExecute_rejects (h : ¬ Accepts o cmdLine) :
    Exec.Returns (processExecute o tid cmdLine) fun r => r.2 = none := by
  rw [processExecute]
  cases hcopy : o.fnCopy with
  | false =>
    rw [alloc_false]
    exact .pure rfl
  | true =>
    refine .bind fun fnCopy => ?_
    cases fnCopy with
    | none => exact .pure rfl
    | some fnCopy =>
      cases hprogram : o.programName with
      | false =>
        dsimp only
        rw [alloc_false]
        exact .bind fun _ => .pure rfl
      | true =>
        refine .bind fun programName => ?_
        cases programName with
        | none => exact .bind fun _ => .pure rfl
        | some programName =>
          have hleads : o.thread = true → ¬ Leads (pageCopy cmdLine).bytes := fun hthread hleads =>
            h ⟨(leads_pageCopy cmdLine).mp hleads, hcopy, hprogram, hthread⟩
          have hfail : Exec.Returns (do
              release (some (fnCopy, 0))
              return (tidError, none) : Code (Int × Option (Nat × CString))) fun r => r.2 = none :=
            .bind fun _ => .pure rfl
          exact threadCreate_rejects hleads hfail programName

/-! ## `load` -/

/-- `load` has opened the executable. -/
def Machine.opened (m : Machine) (name : List UInt8) : Machine :=
  { m with next := m.next + 1, executable := some name }

/-- The first token is opened, and the copy is freed. -/
theorem load_opens {name : List UInt8} {rest : List (List UInt8)} (hleads : Leads fileName.bytes)
    (hname : argTokens fileName.bytes = name :: rest) (hpagedir : o.pagedir = true)
    (hcopy : o.loadCopy = true) : load o fileName m =
      (if o.opens name && o.segments then setupStack o fileName else pure false : Code Bool)
        (m.opened name) := by
  obtain ⟨hnone, -⟩ | ⟨token, name', rest', htokens, htoken, hstring, hzero⟩ :=
    strtokR_first fileName
  · rw [hname] at hnone
    cases hnone
  · obtain ⟨rfl, -⟩ := List.cons.inj (hname.symm.trans htokens)
    obtain rfl := hzero.mpr hleads
    have hfree : release (some (m.next, 0)) { m.copied with executable := some name } =
        .ok ((), m.opened name) := release_head { m.copied with executable := some name } _ _
    rw [load, hpagedir, hcopy, Bool.not_true, if_neg Bool.false_ne_true,
      Exec.run_bind (alloc_some m)]
    dsimp only
    rw [htoken]
    dsimp only
    rw [hstring, Exec.run_bind (a := ()) rfl, Exec.run_bind hfree]

/-- What `load` does with a command line that begins with its first token. -/
theorem load_runs {name : List UInt8} {rest : List (List UInt8)}
    (hlen : fileName.bytes.length < pgSize) (hleads : Leads fileName.bytes)
    (hname : argTokens fileName.bytes = name :: rest) (hesp : m.esp = 0) :
    (LoadStops o fileName ∧ ∃ m', load o fileName m = .ok (false, m') ∧ m'.live = m.live ∧
      m'.name = m.name ∧ (o.pagedir = true → m'.executable = some name)) ∨
    (¬ LoadStops o fileName ∧ ((∃ e, load o fileName m = .error e) ∨
      ∃ success m', load o fileName m = .ok (success, m') ∧
        m'.live = (m.next + 1) :: m.live)) := by
  cases hpagedir : o.pagedir with
  | false =>
    rw [load, hpagedir]
    exact .inl ⟨.inl hpagedir, m, rfl, rfl, rfl, nofun⟩
  | true =>
    cases hcopy : o.loadCopy with
    | false =>
      rw [load, hpagedir, hcopy]
      refine .inr ⟨?_, .inl ⟨.assertion, rfl⟩⟩
      rintro (h | ⟨h, -⟩)
      · exact Bool.false_ne_true (h.symm.trans hpagedir)
      · exact Bool.false_ne_true (hcopy.symm.trans h)
    | true =>
      rw [load_opens hleads hname hpagedir hcopy]
      cases hfound : o.opens name && o.segments with
      | false =>
        refine .inl ⟨.inr ⟨hcopy, fun name' rest' h => ?_⟩, _, rfl, rfl, rfl, fun _ => rfl⟩
        obtain ⟨rfl, -⟩ := List.cons.inj (hname.symm.trans h)
        exact hfound
      | true =>
        refine .inr ⟨?_, ?_⟩
        · rintro (h | ⟨-, h⟩)
          · exact Bool.false_ne_true (h.symm.trans hpagedir)
          · exact Bool.false_ne_true ((h _ _ hname).symm.trans hfound)
        · rw [if_pos rfl]
          obtain ⟨m', hrun, -, hkept⟩ | ⟨e, he, -⟩ :=
            setupStack_runs (m := m.opened name) (o := o) hlen hesp
          · exact .inr ⟨true, m', hrun, hkept.live⟩
          · exact .inl ⟨e, he⟩

/-! ## The process -/

theorem startProcess_ok {page : Nat} {success : Bool}
    (hload : load o fileName { m with esp := 0 } = .ok (success, m')) (hpage : page ∈ m'.live) :
    startProcess o page fileName m =
      .ok ((), { m' with loadState := some success, live := m'.live.erase page }) := by
  rw [startProcess, Exec.run_bind (a := ()) rfl, Exec.run_bind hload, Exec.run_bind (a := ()) rfl,
    release, Exec.run_bind (a := m'.live) rfl, if_pos ⟨rfl, hpage⟩]
  rfl

theorem startProcess_freed {page : Nat} {success : Bool}
    (hload : load o fileName { m with esp := 0 } = .ok (success, m')) (hpage : page ∉ m'.live) :
    startProcess o page fileName m = .error .assertion := by
  rw [startProcess, Exec.run_bind (a := ()) rfl, Exec.run_bind hload, Exec.run_bind (a := ()) rfl,
    release, Exec.run_bind (a := m'.live) rfl, if_neg fun h => hpage h.2]
  rfl

theorem startProcess_error {page : Nat} {e : Crash}
    (hload : load o fileName { m with esp := 0 } = .error e) :
    startProcess o page fileName m = .error e := by
  rw [startProcess, Exec.run_bind (a := ()) rfl]
  exact Exec.run_bind_error hload

section

variable {page : Nat} {t : Int} {m₁ : Machine}
  (hexecute : processExecute o tid cmdLine m = .ok ((t, some (page, fileName)), m₁))

include hexecute

theorem exec_started (hstart : startProcess o page fileName m₁ = .ok ((), m')) :
    exec o tid cmdLine m =
      .ok (some (if m'.loadState = some true then t else -1), m') := by
  rw [exec, Exec.run_bind hexecute]
  dsimp only
  rw [Exec.run_bind hstart]
  rfl

theorem exec_crashed {e : Crash} (hstart : startProcess o page fileName m₁ = .error e) :
    exec o tid cmdLine m = .error e := by
  rw [exec, Exec.run_bind hexecute]
  exact Exec.run_bind_error hstart

end

/-- Without a new thread `exec` waits for ever, if it gets that far. -/
theorem exec_rejects (h : ¬ Accepts o cmdLine) : Exec.Returns (exec o tid cmdLine) (· = none) := by
  intro s
  rw [exec, Exec.wp_bind]
  refine Exec.wp_mono (processExecute_rejects h s) (fun _ => id) fun r s' hr => ?_
  obtain ⟨t, started⟩ := r
  obtain rfl : started = none := hr
  rfl

theorem tokens_of_leads (h : Leads cmdLine.bytes) :
    ∃ name rest, argTokens (pageCopy cmdLine).bytes = name :: rest := by
  obtain ⟨c, hc, hne⟩ := (leads_pageCopy cmdLine).mpr h
  obtain ⟨bytes, hbytes⟩ := List.head?_eq_some_iff.mp hc
  rw [hbytes]
  exact List.exists_cons_of_ne_nil (tokens_ne_nil (by simpa using hne))

/-- **Executing a command line** goes well if and only if it begins with its first token,
`process_execute` gets what it needs, and `load` stops before it sets up the stack. -/
theorem exec_safe_iff (hm : m.Numbered) : Safe o tid cmdLine m ↔
    Accepts o cmdLine ∧ o.child = true ∧ LoadStops o (pageCopy cmdLine) := by
  by_cases haccepts : Accepts o cmdLine
  case neg =>
    refine iff_of_false ?_ fun h => haccepts h.1
    rintro ⟨result, m', hrun, -⟩
    have hnone : some result = none :=
      Exec.wp_ok (Q := fun r _ => r = none) (exec_rejects haccepts m) hrun
    cases hnone
  case pos =>
    obtain ⟨name, rest, hname⟩ := tokens_of_leads haccepts.leads
    have hlen := length_pageCopy cmdLine
    have hexecute := processExecute_accepts m tid haccepts hname
    have hleads := (leads_pageCopy cmdLine).mpr haccepts.leads
    cases hchild : o.child with
    | false =>
      refine iff_of_false ?_ fun h => Bool.false_ne_true h.2.1
      rintro ⟨result, m', hrun, -⟩
      rw [hchild, if_neg Bool.false_ne_true] at hexecute
      -- The page is freed here and once more by the new thread.
      have hcrash : ∃ e, startProcess o m.next (pageCopy cmdLine)
          { m.forked name with live := m.live } = .error e := by
        have hnew : m.next ∉ m.live := fun h => Nat.lt_irrefl _ (hm _ h)
        obtain ⟨-, m₂, hload, hlive, -⟩ | ⟨-, ⟨e, he⟩ | ⟨success, m₂, hload, hlive⟩⟩ :=
          load_runs (o := o) (m := { m.forked name with live := m.live, esp := 0 }) hlen hleads
            hname rfl
        · refine ⟨_, startProcess_freed hload ?_⟩
          rw [hlive]
          exact hnew
        · exact ⟨e, startProcess_error he⟩
        · refine ⟨_, startProcess_freed hload ?_⟩
          rw [hlive]
          refine fun h => (List.mem_cons.mp h).elim (fun h => ?_) hnew
          exact absurd h (Nat.ne_of_lt (Nat.lt_add_of_pos_right (Nat.succ_pos _)))
      obtain ⟨e, he⟩ := hcrash
      rw [exec_crashed hexecute he] at hrun
      cases hrun
    | true =>
      rw [hchild, if_pos rfl] at hexecute
      obtain ⟨hstops, m₂, hload, hlive, hthread, hopened⟩ |
          ⟨hgoes, ⟨e, he⟩ | ⟨success, m₂, hload, hlive⟩⟩ :=
        load_runs (o := o) (m := { m.forked name with esp := 0 }) hlen hleads hname rfl
      · have hrun := exec_started hexecute (startProcess_ok hload (hlive ▸ List.mem_cons_self))
        refine iff_of_true ⟨_, _, hrun, ?_, ⟨name, rest, hname, hthread, hopened⟩, .inr ?_⟩
          ⟨haccepts, rfl, hstops⟩
        · show m₂.live.erase m.next = m.live
          rw [hlive]
          exact List.erase_cons_head m.next m.live
        · exact if_neg (by simp)
      · refine iff_of_false ?_ fun h => hgoes h.2.2
        rintro ⟨result, m', hrun, -⟩
        rw [exec_crashed hexecute (startProcess_error he)] at hrun
        cases hrun
      · refine iff_of_false ?_ fun h => hgoes h.2.2
        rintro ⟨result, m', hrun, hfreed, -⟩
        have hpage : m.next ∈ m₂.live := hlive ▸ List.mem_cons_of_mem _ List.mem_cons_self
        rw [exec_started hexecute (startProcess_ok hload hpage)] at hrun
        cases hrun
        -- The copy of `setup_stack` is left.
        have hcount : (m₂.live.erase m.next).length = m.live.length := congrArg _ hfreed
        rw [List.length_erase_of_mem hpage, hlive] at hcount
        exact absurd hcount (Nat.succ_ne_self _)

theorem exec_safe_missing : Safe { granted with opens := fun _ => false } 3 echo unused :=
  (exec_safe_iff fun _ h => absurd h List.not_mem_nil).mpr
    ⟨⟨⟨101, rfl, by decide⟩, rfl, rfl, rfl⟩, rfl, .inr ⟨rfl, fun _ _ _ => rfl⟩⟩

/-- ` x`. -/
def spaced : CString := ⟨[32, 120], by decide⟩

theorem not_safe_spaced : ¬ Safe granted 3 spaced unused := by
  rintro ⟨result, m', hrun, -⟩
  have hreject : ¬ Accepts granted spaced := by
    rintro ⟨⟨c, hc, hne⟩, -⟩
    obtain rfl : 32 = c := Option.some.inj hc
    exact hne List.mem_cons_self
  have hnone : some result = none :=
    Exec.wp_ok (Q := fun r _ => r = none) (exec_rejects hreject unused) hrun
  cases hnone

end Pintos.Args

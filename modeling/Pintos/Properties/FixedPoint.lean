import Pintos.Properties.AllList
import Pintos.Threads.FixedPoint
import Mathlib.Tactic.Linarith

/-!
# The arithmetic of MLFQS

While no more than `N` threads are ready or running at the turn of a second, `load_avg` is between 0
and `N`, so the coefficient of `recent_cpu` is at most `2 * N / (2 * N + 1)`. A thread gains at most
100 within a second, and loses more than that when the second turns, if its `recent_cpu` is high. The
bounds that follow from this are small enough for the machine's integers up to 1300 threads, and
there the machine computes the same as exact arithmetic (`Machine`).

* `mlfqs_in_range` — the bounds, and that nothing overflows.
-/

namespace Pintos.Schedule

open Pintos.Logic

variable {P : Sys → Action → Prop} {s s' : Sys} {t u : Tid} {i : Instr} {a : Action} {N : Nat}
  {n x y : CExpr} {v w : Int} {τ σ : CType}

/-! ## Division -/

theorem tdiv_bounds {a b x k : Int} (hk : 0 < k) (ha : a * k ≤ x) (hb : x ≤ b * k) :
    a ≤ x.tdiv k ∧ x.tdiv k ≤ b := by
  rcases Int.le_total 0 x with hx | hx
  · rw [Int.tdiv_eq_ediv_of_nonneg hx]
    exact ⟨Int.le_ediv_of_mul_le hk ha, Int.ediv_le_of_le_mul hk hb⟩
  · obtain ⟨y, rfl⟩ : ∃ y, x = -y := ⟨-x, (Int.neg_neg x).symm⟩
    rw [Int.neg_tdiv, Int.tdiv_eq_ediv_of_nonneg (by omega)]
    have hle : y / k ≤ -a := Int.ediv_le_of_le_mul hk (by rw [Int.neg_mul]; omega)
    have hge : -b ≤ y / k := Int.le_ediv_of_mul_le hk (by rw [Int.neg_mul]; omega)
    exact ⟨by omega, by omega⟩

/-- Division makes no number larger. -/
theorem fits_tdiv {k : Int} (hk : 0 < k) (h : τ.Fits v) : τ.Fits (v.tdiv k) := by
  obtain ⟨hlow, hhigh⟩ := h
  cases τ with
  | int =>
    simp only [CType.bound] at hlow hhigh
    have hdiv := tdiv_bounds (a := -2147483648) (b := 2147483647) (x := v) hk (by omega) (by omega)
    exact CType.fits_int hdiv.1 hdiv.2
  | int64 =>
    simp only [CType.bound] at hlow hhigh
    have hdiv := tdiv_bounds (a := -9223372036854775808) (b := 9223372036854775807) (x := v) hk
      (by omega) (by omega)
    exact CType.fits_int64 hdiv.1 hdiv.2

/-! ## Macros -/

namespace Machine

theorem has_f : f.Has .int Sys.fpOne :=
  (CExpr.has_lit 1 (by decide)).shiftLeft (CExpr.has_lit 14 (by decide)) (by decide) (by decide)
    (by decide)

theorem has_fpConvertToFp (hn : n.Has .int v) (h : CType.int.Fits (v * Sys.fpOne)) :
    (fpConvertToFp n).Has .int (v * Sys.fpOne) :=
  CExpr.Has.cast (hn.mul has_f h) h

theorem has_fpFpAddInt (hx : x.Has τ v) (hn : n.Has .int w) (hw : CType.int.Fits (w * Sys.fpOne))
    (h : (τ.join .int).Fits (v + w * Sys.fpOne)) :
    (fpFpAddInt x n).Has (τ.join .int) (v + w * Sys.fpOne) :=
  hx.add (hn.mul has_f hw) h

theorem has_fpMult (hx : x.Has .int64 v) (hy : y.Has .int64 w) (h : CType.int64.Fits (v * w)) :
    (fpMult x y).Has .int64 ((v * w).tdiv Sys.fpOne) :=
  ((CExpr.Has.cast hx hx.1).mul hy h).div has_f (by decide) (fits_tdiv (by decide) h)

theorem has_fpDiv (hx : x.Has .int v) (hy : y.Has .int w) (hw : 0 < w)
    (hv : CType.int64.Fits v) (h : CType.int64.Fits (v * Sys.fpOne)) :
    (fpDiv x y).Has .int64 ((v * Sys.fpOne).tdiv w) :=
  ((hx.cast hv).mul has_f h).div hy (Int.ne_of_gt hw) (fits_tdiv hw h)

theorem join_int (τ : CType) : τ.join .int = τ := by
  cases τ <;> rfl

theorem has_fpConvertToIntNearest (hx : x.Has τ v) (hup : 0 ≤ v → τ.Fits (v + 8192))
    (hdown : v < 0 → τ.Fits (v - 8192)) (h : CType.int.Fits (Sys.fpNearest v)) :
    (fpConvertToIntNearest x).Has .int (Sys.fpNearest v) := by
  have hhalf : (f / 2).Has .int 8192 :=
    has_f.div (CExpr.has_lit 2 (by decide)) (by decide) (by decide)
  refine hx.ifNonneg (fun hv => ?_) fun hv => ?_
  · have hval : Sys.fpNearest v = (v + 8192).tdiv Sys.fpOne := by
      rw [Sys.fpNearest, if_pos hv]
      rfl
    have hfits : (τ.join .int).Fits (v + 8192) := by
      rw [join_int]
      exact hup hv
    rw [hval] at h ⊢
    refine CExpr.Has.cast ((hx.add hhalf hfits).div has_f (by decide) ?_) h
    rw [join_int]
    exact fits_tdiv (by decide) hfits
  · have hval : Sys.fpNearest v = (v - 8192).tdiv Sys.fpOne := by
      rw [Sys.fpNearest, if_neg (Int.not_le.mpr hv)]
      rfl
    have hfits : (τ.join .int).Fits (v - 8192) := by
      rw [join_int]
      exact hdown hv
    rw [hval] at h ⊢
    refine CExpr.Has.cast ((hx.sub hhalf hfits).div has_f (by decide) ?_) h
    rw [join_int]
    exact fits_tdiv (by decide) hfits

end Machine

/-! ## The filters -/

/-- The coefficient of `recent_cpu` for a `load_avg` of at most `m`. -/
theorem decay_bounds {loadAvg m : Int} (hl : 0 ≤ loadAvg) (hm : loadAvg ≤ m * 16384) :
    0 ≤ ((loadAvg * 2) * 16384).tdiv (loadAvg * 2 + 16384) ∧
      ((loadAvg * 2) * 16384).tdiv (loadAvg * 2 + 16384) < 16384 ∧
      ((loadAvg * 2) * 16384).tdiv (loadAvg * 2 + 16384) * (2 * m + 1) ≤ 2 * m * 16384 := by
  have hpos : 0 < loadAvg * 2 + 16384 := by omega
  rw [Int.tdiv_eq_ediv_of_nonneg (by omega)]
  have hnonneg : 0 ≤ (loadAvg * 2 * 16384) / (loadAvg * 2 + 16384) :=
    Int.ediv_nonneg (by omega) (Int.le_of_lt hpos)
  have hlt : (loadAvg * 2 * 16384) / (loadAvg * 2 + 16384) < 16384 :=
    Int.ediv_lt_of_lt_mul hpos (by omega)
  have hmul : (loadAvg * 2 * 16384) / (loadAvg * 2 + 16384) * (loadAvg * 2 + 16384) ≤
      loadAvg * 2 * 16384 := Int.ediv_mul_le _ (Int.ne_of_gt hpos)
  generalize (loadAvg * 2 * 16384) / (loadAvg * 2 + 16384) = c at *
  refine ⟨hnonneg, hlt, ?_⟩
  have hload : loadAvg * (16384 - c) ≤ m * 16384 * (16384 - c) :=
    Int.mul_le_mul_of_nonneg_right hm (by omega)
  linarith

/-- One update of `recent_cpu` keeps it in bounds, and makes up for a second of running. -/
theorem mlfqsRecentCpu_bounds {loadAvg m : Int} {r : Thread} (hl : 0 ≤ loadAvg)
    (hm : loadAvg ≤ m * 16384) (hr : -20 * (2 * m + 1) * 16384 ≤ r.recentCpu)
    (hr' : r.recentCpu ≤ (120 * (2 * m + 1) + 100) * 16384) (hn : -20 ≤ r.nice)
    (hn' : r.nice ≤ 20) : -20 * (2 * m + 1) * 16384 ≤ Sys.mlfqsRecentCpu loadAvg r ∧
      Sys.mlfqsRecentCpu loadAvg r ≤ 120 * (2 * m + 1) * 16384 := by
  obtain ⟨hc, hc', hdecay⟩ := decay_bounds hl hm
  simp only [Sys.mlfqsRecentCpu, Sys.fpOne]
  generalize ((loadAvg * 2) * 16384).tdiv (loadAvg * 2 + 16384) = c at *
  have hlow : c * (-20 * (2 * m + 1) * 16384) ≤ c * r.recentCpu := Int.mul_le_mul_of_nonneg_left hr hc
  have hhigh : c * r.recentCpu ≤ c * ((120 * (2 * m + 1) + 100) * 16384) :=
    Int.mul_le_mul_of_nonneg_left hr' hc
  obtain ⟨hdiv, hdiv'⟩ := tdiv_bounds (a := -40 * m * 16384) (b := (240 * m + 100) * 16384)
    (x := c * r.recentCpu) (by decide : (0 : Int) < 16384) (by linarith) (by linarith)
  constructor
  · linarith
  · linarith

theorem mlfqsUpdateLoadAvg_bounds {loadAvg m ready : Int} (hl : 0 ≤ loadAvg)
    (hm : loadAvg ≤ m * 16384) (hr : 0 ≤ ready) (hr' : ready ≤ m) :
    0 ≤ (loadAvg * 59).tdiv 60 + (ready * 16384).tdiv 60 ∧
      (loadAvg * 59).tdiv 60 + (ready * 16384).tdiv 60 ≤ m * 16384 := by
  rw [Int.tdiv_eq_ediv_of_nonneg (by omega), Int.tdiv_eq_ediv_of_nonneg (by omega)]
  omega

/-! ## What the code computes -/

/-- The values of a thread's fields that 1300 threads can lead to. -/
structure Thread.Small (t : Thread) : Prop where
  recentCpu_ge : -852295680 ≤ t.recentCpu
  recentCpu_le : t.recentCpu ≤ 5115412480
  nice_ge : -20 ≤ t.nice
  nice_le : t.nice ≤ 20

theorem fpNearest_bounds {a b : Int} (ha : a * Sys.fpOne ≤ v) (hb : v ≤ b * Sys.fpOne) :
    a - 1 ≤ Sys.fpNearest v ∧ Sys.fpNearest v ≤ b + 1 := by
  have hhalf : Sys.fpOne / 2 = 8192 := rfl
  rw [Sys.fpNearest, hhalf]
  simp only [Sys.fpOne] at ha hb ⊢
  split
  · next hv => exact tdiv_bounds (by decide) (by omega) (by omega)
  · next hv => exact tdiv_bounds (by decide) (by omega) (by omega)

theorem fpNearest_mono (h : v ≤ w) : Sys.fpNearest v ≤ Sys.fpNearest w := by
  have hhalf : Sys.fpOne / 2 = 8192 := rfl
  rw [Sys.fpNearest, Sys.fpNearest, hhalf]
  split
  · next hv =>
    rw [if_pos (Int.le_trans hv h)]
    exact Int.tdiv_le_tdiv (by decide) (by omega)
  · next hv =>
    split
    · exact Int.tdiv_le_tdiv (by decide) (by omega)
    · exact Int.tdiv_le_tdiv (by decide) (by omega)

namespace Machine

variable {r : Thread} {loadAvg : Int}

theorem mlfqsUpdatePriority_eq (h : r.Small) :
    mlfqsUpdatePriority r = some { r with priority := Sys.mlfqsPriority r } := by
  obtain ⟨hr, hr', hn, hn'⟩ := h
  obtain ⟨hq, hq'⟩ := tdiv_bounds (a := -213073920) (b := 1278853120) (x := r.recentCpu)
    (by decide : (0 : Int) < 4) (by omega) (by omega)
  have hrecent : (CExpr.of .int64 r.recentCpu).Has .int64 r.recentCpu :=
    CExpr.has_of (CType.fits_int64 (by omega) (by omega))
  have hnice : (CExpr.of .int r.nice).Has .int r.nice :=
    CExpr.has_of (CType.fits_int (by omega) (by omega))
  have hquarter : (fpFpDivInt (.of .int64 r.recentCpu) 4).Has .int64 (r.recentCpu.tdiv 4) :=
    hrecent.div (CExpr.has_lit 4 (by decide)) (by decide) (fits_tdiv (by decide) hrecent.1)
  have htwice : (2 * CExpr.of .int r.nice).Has .int (2 * r.nice) :=
    (CExpr.has_lit 2 (by decide)).mul hnice (CType.fits_int (by omega) (by omega))
  have hmax : (fpConvertToFp 63).Has .int (63 * 16384) :=
    has_fpConvertToFp (CExpr.has_lit 63 (by decide)) (by decide)
  have hdouble : (fpConvertToFp (2 * .of .int r.nice)).Has .int (2 * r.nice * 16384) :=
    has_fpConvertToFp htwice (CType.fits_int (by simp only [Sys.fpOne]; omega)
      (by simp only [Sys.fpOne]; omega))
  have hdiff := hmax.sub hquarter (CType.fits_int64 (by omega) (by omega))
  have hvalue := hdiff.sub hdouble (CType.fits_int64 (by omega) (by omega))
  obtain ⟨hlow, hhigh⟩ := fpNearest_bounds (a := -78032) (b := 13108)
    (v := 63 * 16384 - r.recentCpu.tdiv 4 - 2 * r.nice * 16384)
    (by simp only [Sys.fpOne]; omega) (by simp only [Sys.fpOne]; omega)
  have hfits := CType.fits_int (by omega) (by omega : Sys.fpNearest
    (63 * 16384 - r.recentCpu.tdiv 4 - 2 * r.nice * 16384) ≤ 2147483647)
  have hnearest := has_fpConvertToIntNearest hvalue
    (fun _ => CType.fits_int64 (by omega) (by omega))
    (fun _ => CType.fits_int64 (by omega) (by omega)) hfits
  have hstore := hnearest.store hfits
  rw [mlfqsUpdatePriority]
  refine (congrArg (fun x => Option.bind x _) hstore).trans ?_
  rfl

/-- The coefficient is less than one. -/
theorem has_decay (hl : 0 ≤ loadAvg) (hl' : loadAvg ≤ 21299200) : (decay loadAvg).Has .int64
    (((loadAvg * 2) * Sys.fpOne).tdiv (loadAvg * 2 + Sys.fpOne)) := by
  have hload : (CExpr.of .int loadAvg).Has .int loadAvg :=
    CExpr.has_of (CType.fits_int (by omega) (by omega))
  have htwice : (fpFpMultInt (.of .int loadAvg) 2).Has .int (loadAvg * 2) :=
    hload.mul (CExpr.has_lit 2 (by decide)) (CType.fits_int (by omega) (by omega))
  have hsucc : (fpFpAddInt (fpFpMultInt (.of .int loadAvg) 2) 1).Has .int
      (loadAvg * 2 + 1 * Sys.fpOne) :=
    has_fpFpAddInt htwice (CExpr.has_lit 1 (by decide)) (by decide)
      (CType.fits_int (by simp only [Sys.fpOne]; omega) (by simp only [Sys.fpOne]; omega))
  have hquot := has_fpDiv htwice hsucc (by simp only [Sys.fpOne]; omega)
    (CType.fits_int64 (by omega) (by omega))
    (CType.fits_int64 (by simp only [Sys.fpOne]; omega) (by simp only [Sys.fpOne]; omega))
  rwa [Int.one_mul] at hquot

theorem mlfqsUpdateEachRecentCpu_eq (h : r.Small) (hl : 0 ≤ loadAvg) (hl' : loadAvg ≤ 21299200) :
    mlfqsUpdateEachRecentCpu loadAvg r =
      some { r with recentCpu := Sys.mlfqsRecentCpu loadAvg r } := by
  obtain ⟨hr, hr', hn, hn'⟩ := h
  obtain ⟨hc, hc', -⟩ := decay_bounds (m := 1300) hl (by omega)
  have hdecay := has_decay hl hl'
  have hrecent : (CExpr.of .int64 r.recentCpu).Has .int64 r.recentCpu :=
    CExpr.has_of (CType.fits_int64 (by omega) (by omega))
  have hnice : (CExpr.of .int r.nice).Has .int r.nice :=
    CExpr.has_of (CType.fits_int (by omega) (by omega))
  have hvalue : Sys.mlfqsRecentCpu loadAvg r =
      (((loadAvg * 2) * Sys.fpOne).tdiv (loadAvg * 2 + Sys.fpOne) * r.recentCpu).tdiv Sys.fpOne +
        r.nice * Sys.fpOne := rfl
  rw [hvalue]
  simp only [Sys.fpOne] at hdecay ⊢
  generalize ((loadAvg * 2) * 16384).tdiv (loadAvg * 2 + 16384) = c at *
  have hlow : -852295680 * 16384 ≤ c * r.recentCpu := by nlinarith
  have hhigh : c * r.recentCpu ≤ 5115412480 * 16384 := by nlinarith
  obtain ⟨hdiv, hdiv'⟩ := tdiv_bounds (by decide : (0 : Int) < 16384) hlow hhigh
  have hmult := has_fpMult hdecay hrecent (CType.fits_int64 (by omega) (by omega))
  have hadd := has_fpFpAddInt hmult hnice
    (CType.fits_int (by simp only [Sys.fpOne]; omega) (by simp only [Sys.fpOne]; omega))
    (CType.fits_int64 (by simp only [Sys.fpOne]; omega) (by simp only [Sys.fpOne]; omega))
  have hstore := hadd.store hadd.1
  rw [mlfqsUpdateEachRecentCpu]
  exact congrArg (fun x => Option.bind x _) hstore

theorem has_getLoadAvg (hl : 0 ≤ s.loadAvg) (hl' : s.loadAvg ≤ 21299200) :
    (threadGetLoadAvg s).Has .int (Sys.fpNearest (s.loadAvg * 100)) := by
  have hload : (CExpr.of .int s.loadAvg).Has .int s.loadAvg :=
    CExpr.has_of (CType.fits_int (by omega) (by omega))
  have hmul := hload.mul (CExpr.has_lit 100 (by decide)) (CType.fits_int (by omega) (by omega))
  obtain ⟨hlow, hhigh⟩ := fpNearest_bounds (v := s.loadAvg * 100) (a := 0) (b := 130000)
    (by simp only [Sys.fpOne]; omega) (by simp only [Sys.fpOne]; omega)
  exact has_fpConvertToIntNearest hmul (fun _ => CType.fits_int (by omega) (by omega))
    (fun _ => CType.fits_int (by omega) (by omega)) (CType.fits_int (by omega) (by omega))

theorem has_getRecentCpu (h : r.Small) :
    (threadGetRecentCpu r).Has .int (Sys.fpNearest (r.recentCpu * 100)) := by
  obtain ⟨hr, hr', -, -⟩ := h
  have hrecent : (CExpr.of .int64 r.recentCpu).Has .int64 r.recentCpu :=
    CExpr.has_of (CType.fits_int64 (by omega) (by omega))
  have hmul := hrecent.mul (CExpr.has_lit 100 (by decide)) (CType.fits_int64 (by omega) (by omega))
  obtain ⟨hlow, hhigh⟩ := fpNearest_bounds (v := r.recentCpu * 100) (a := -5202000) (b := 31222000)
    (by simp only [Sys.fpOne]; omega) (by simp only [Sys.fpOne]; omega)
  exact has_fpConvertToIntNearest hmul (fun _ => CType.fits_int64 (by omega) (by omega))
    (fun _ => CType.fits_int64 (by omega) (by omega)) (CType.fits_int (by omega) (by omega))

theorem mlfqsIncreaseRunningRecentCpu_eq (h : (s.thread s.running).Small) :
    mlfqsIncreaseRunningRecentCpu s = some s.mlfqsIncreaseRunningRecentCpu := by
  obtain ⟨hr, hr', -, -⟩ := h
  unfold mlfqsIncreaseRunningRecentCpu Sys.mlfqsIncreaseRunningRecentCpu
  split
  · have hrecent : (CExpr.of .int64 (s.thread s.running).recentCpu).Has .int64 _ :=
      CExpr.has_of (CType.fits_int64 (by omega) (by omega))
    have hadd : (fpFpAddInt (.of .int64 (s.thread s.running).recentCpu) 1).Has .int64
        ((s.thread s.running).recentCpu + 1 * Sys.fpOne) :=
      has_fpFpAddInt hrecent (CExpr.has_lit 1 (by decide)) (by decide)
        (CType.fits_int64 (by simp only [Sys.fpOne]; omega) (by simp only [Sys.fpOne]; omega))
    rw [Int.one_mul] at hadd
    refine (congrArg (fun x => Option.bind x _) (hadd.store hadd.1)).trans ?_
    refine congrArg some ?_
    rw [Sys.setThread, Sys.setThread]
  · rfl

/-- The threads that are ready or running, but for the idle thread. -/
def ready (s : Sys) : Int := s.readyList.length + if s.running ≠ idleThread then 1 else 0

theorem has_readyThreadsNum (h : ready s ≤ 1300) : (readyThreadsNum s).Has .int (ready s) := by
  have hlen : (s.readyList.length : Int) ≤ 1300 := by
    have := h
    unfold ready at this
    split at this <;> omega
  have hfits : CType.int.Fits s.readyList.length := CType.fits_int (by omega) (by omega)
  have hsize : (CExpr.of .int (CType.int.wrap s.readyList.length)).Has .int s.readyList.length := by
    rw [CType.wrap_of_fits hfits]
    exact CExpr.has_of hfits
  rw [readyThreadsNum, ready]
  split
  · exact hsize.add (CExpr.has_lit 1 (by decide)) (CType.fits_int (by omega) (by omega))
  · rwa [Int.add_zero]

theorem mlfqsUpdateLoadAvg_eq (hl : 0 ≤ s.loadAvg) (hl' : s.loadAvg ≤ 21299200)
    (h : ready s ≤ 1300) : mlfqsUpdateLoadAvg s = some s.mlfqsUpdateLoadAvg := by
  have hready := has_readyThreadsNum h
  have hnonneg : 0 ≤ ready s := by
    unfold ready
    split <;> omega
  have hload : (CExpr.of .int s.loadAvg).Has .int s.loadAvg :=
    CExpr.has_of (CType.fits_int (by omega) (by omega))
  have hmul := hload.mul (CExpr.has_lit 59 (by decide)) (CType.fits_int (by omega) (by omega))
  have hfirst : (fpFpDivInt (fpFpMultInt (.of .int s.loadAvg) 59) 60).Has .int
      ((s.loadAvg * 59).tdiv 60) :=
    hmul.div (CExpr.has_lit 60 (by decide)) (by decide) (fits_tdiv (by decide) hmul.1)
  have hfp := has_fpConvertToFp hready
    (CType.fits_int (by simp only [Sys.fpOne]; omega) (by simp only [Sys.fpOne]; omega))
  have hsecond : (fpFpDivInt (fpConvertToFp (readyThreadsNum s)) 60).Has .int
      ((ready s * Sys.fpOne).tdiv 60) :=
    hfp.div (CExpr.has_lit 60 (by decide)) (by decide) (fits_tdiv (by decide) hfp.1)
  obtain ⟨hlow, hhigh⟩ := mlfqsUpdateLoadAvg_bounds (m := 1300) hl (by omega) hnonneg h
  have hadd := hfirst.add hsecond
    (CType.fits_int (by simp only [Sys.fpOne]; omega) (by simp only [Sys.fpOne]; omega))
  refine (congrArg (fun x => Option.bind x _) (hadd.store hadd.1)).trans ?_
  rfl

end Machine

/-! ## The invariant -/

/-- The state in `timer_interrupt` when `wake_threads` has returned. -/
def Sys.awoken (s : Sys) : Sys := Sys.wakeThreads s.waitingThreads s.ticked

/-- What is asked of a run: at most `N` threads are ready or running at each second, and `nice` is
set to values from -20 to 20. -/
def Loaded (N : Nat) (s : Sys) : Action → Prop
  | .tick => (s.ticks + 1) % timerFreq = 0 → Machine.ready s.awoken ≤ N
  | .split => (s.ticks + 1) % timerFreq = 0 → Machine.ready s.awoken ≤ N
  | .call (.setNice nice) => -20 ≤ nice ∧ nice ≤ 20
  | _ => True

/-- The states of the runs in the MLFQS mode that begin with a `load_avg` and a `recent_cpu` of 0. -/
inductive Counting (N : Nat) : Sys → Prop where
  | init (condLock : CondId → Nat) (unset : LockId → Int) (values : Nat → Nat) (ticks : Int)
      (threadTicks : Nat) (priority : Int) :
      Counting N (Sys.init true condLock unset values ticks threadTicks priority 0 0)
  | step {s s' : Sys} (a : Action) (h : Counting N s) (enabled : a.Enabled s) (cond : Loaded N s a)
      (hs : a.step s = .ok s') : Counting N s'

/-- What has come together since the last second. -/
structure Accrued (N : Nat) (since : Int) (x : Timing) : Prop where
  loadAvg_nonneg : 0 ≤ x.loadAvg
  loadAvg_le : x.loadAvg ≤ N * 16384
  nice : ∀ t, -20 ≤ (x.thread t).nice ∧ (x.thread t).nice ≤ 20
  low : ∀ t, -20 * (2 * N + 1) * 16384 ≤ (x.thread t).recentCpu
  high : ∀ t, (x.thread t).recentCpu ≤ (120 * (2 * N + 1) + 100) * 16384
  listed : ∀ t ∈ x.allList, (x.thread t).recentCpu ≤ (120 * (2 * N + 1) + since) * 16384
  idle : (x.thread idleThread).recentCpu = 0

variable {x y : Timing} {since : Int}

/-- Nothing is charged to a thread. -/
theorem Accrued.renice (h : Accrued N since x) (hload : y.loadAvg = x.loadAvg)
    (hlist : y.allList = x.allList)
    (hrecent : ∀ t, (y.thread t).recentCpu = (x.thread t).recentCpu)
    (hnice : ∀ t, -20 ≤ (y.thread t).nice ∧ (y.thread t).nice ≤ 20) : Accrued N since y where
  loadAvg_nonneg := hload ▸ h.loadAvg_nonneg
  loadAvg_le := hload ▸ h.loadAvg_le
  nice := hnice
  low t := hrecent t ▸ h.low t
  high t := hrecent t ▸ h.high t
  listed t ht := hrecent t ▸ h.listed t (hlist ▸ ht)
  idle := (hrecent _).trans h.idle

theorem Accrued.call (h : Accrued N (s.ticks % 100) s.timing) {c : Call}
    (hcond : Loaded N s (.call c)) (hcreated : 1 < s.created) : Accrued N (s.ticks % 100) (s.timingAfter c) := by
  have hticks : 0 ≤ s.ticks % 100 := Int.emod_nonneg _ (by decide)
  cases c with
  | create p =>
    have hthread : ∀ t, (s.timingAfter (.create p)).thread t =
        if t = s.created then ⟨0, 0, 0⟩ else s.timing.thread t :=
      fun t => Function.update_apply ..
    refine ⟨h.loadAvg_nonneg, h.loadAvg_le, fun t => ?_, fun t => ?_, fun t => ?_, fun t ht => ?_, ?_⟩
    · rw [hthread]
      split
      · exact ⟨by decide, by decide⟩
      · exact h.nice t
    · rw [hthread]
      split
      · dsimp only
        omega
      · exact h.low t
    · rw [hthread]
      split
      · dsimp only
        omega
      · exact h.high t
    · rw [hthread]
      split
      · dsimp only
        omega
      · next hne => exact h.listed t ((List.mem_cons.mp ht).resolve_left hne)
    · rw [hthread, if_neg (Nat.ne_of_lt hcreated)]
      exact h.idle
  | exit =>
    exact { h with listed := fun t ht => h.listed t (List.mem_of_mem_erase ht) }
  | setNice n =>
    have hthread : ∀ t, (s.timingAfter (.setNice n)).thread t =
        if t = s.running then { s.timing.thread s.running with nice := n } else s.timing.thread t :=
      fun t => Function.update_apply ..
    have hrecent : ∀ t, ((s.timingAfter (.setNice n)).thread t).recentCpu =
        (s.timing.thread t).recentCpu := by
      intro t
      rw [hthread]
      split
      · next ht => rw [ht]
      · rfl
    refine h.renice rfl rfl hrecent fun t => ?_
    rw [hthread]
    split
    · exact hcond
    · exact h.nice t
  | sleep n =>
    rw [Sys.timingAfter]
    split
    · exact h
    · have hnice : ∀ t, ((s.alarmed n).timing.thread t).nice = (s.timing.thread t).nice :=
        fun t => Sys.setThread_field (·.nice) t fun _ => rfl
      have hrecent : ∀ t, ((s.alarmed n).timing.thread t).recentCpu =
          (s.timing.thread t).recentCpu := fun t => Sys.setThread_field (·.recentCpu) t fun _ => rfl
      exact h.renice rfl rfl hrecent fun t => (hnice t).symm ▸ h.nice t
  | _ => exact h

theorem awoken_timing (hq : Queued s (some s.running) none) : s.awoken.timing =
    { s.timing with
      waitingThreads := s.waitingThreads.drop s.wakens.length
      ticks := s.ticks + 1 } :=
  wakeThreads_timing hq

/-- The state in `timer_interrupt` when the running thread has been charged for the tick. -/
def Sys.charged (s : Sys) : Sys := s.awoken.mlfqsIncreaseRunningRecentCpu

/-- What a tick costs. -/
theorem charged_thread (hq : Queued s (some s.running) none) (t : Tid) :
    (s.charged.thread t).nice = (s.thread t).nice ∧ (s.charged.thread t).recentCpu =
      (s.thread t).recentCpu + if t = s.running ∧ t ≠ idleThread then 16384 else 0 := by
  have hwake := awoken_timing hq
  have hnice : (s.awoken.thread t).nice = (s.thread t).nice :=
    congrArg (fun x : Timing => (x.thread t).nice) hwake
  have hrecent : (s.awoken.thread t).recentCpu = (s.thread t).recentCpu :=
    congrArg (fun x : Timing => (x.thread t).recentCpu) hwake
  have hrunning : s.awoken.running = s.running := wakeThreads_running _ _
  rw [← hnice, ← hrecent]
  unfold Sys.charged Sys.mlfqsIncreaseRunningRecentCpu
  rw [hrunning]
  split
  · next hidle =>
    rw [Sys.setThread_thread]
    split
    · next ht =>
      subst ht
      rw [if_pos ⟨rfl, hidle⟩]
      exact ⟨rfl, rfl⟩
    · next ht =>
      rw [if_neg fun h => ht h.1, Int.add_zero]
      exact ⟨rfl, rfl⟩
  · next hidle =>
    have hskip : ¬(t = s.running ∧ t ≠ idleThread) := fun h => hidle (h.1 ▸ h.2)
    rw [if_neg hskip, Int.add_zero]
    exact ⟨rfl, rfl⟩

/-- Nothing else is changed on the way there. -/
theorem charged_eq (hq : Queued s (some s.running) none) : s.charged.loadAvg = s.loadAvg ∧
    s.charged.allList = s.allList ∧ s.charged.ticks = s.ticks + 1 := by
  have hwake := awoken_timing hq
  have hawoken : s.awoken.loadAvg = s.loadAvg ∧ s.awoken.allList = s.allList ∧
      s.awoken.ticks = s.ticks + 1 :=
    ⟨congrArg (·.loadAvg) hwake, congrArg (·.allList) hwake, congrArg (·.ticks) hwake⟩
  unfold Sys.charged Sys.mlfqsIncreaseRunningRecentCpu
  split
  · exact hawoken
  · exact hawoken

theorem Accrued.charge (h : Accrued N (s.ticks % 100) s.timing) (hlist : AllListed s)
    (hq : Queued s (some s.running) none) : Accrued N (s.ticks % 100 + 1) s.charged.timing := by
  have hticks : 0 ≤ s.ticks % 100 ∧ s.ticks % 100 < 100 := by omega
  obtain ⟨hload, hall, -⟩ := charged_eq hq
  refine ⟨?_, ?_, fun t => ?_, fun t => ?_, fun t => ?_, fun t ht => ?_, ?_⟩
  · show 0 ≤ s.charged.loadAvg
    rw [hload]
    exact h.loadAvg_nonneg
  · show s.charged.loadAvg ≤ _
    rw [hload]
    exact h.loadAvg_le
  · show -20 ≤ (s.charged.thread t).nice ∧ (s.charged.thread t).nice ≤ 20
    rw [(charged_thread hq t).1]
    exact h.nice t
  · show _ ≤ (s.charged.thread t).recentCpu
    rw [(charged_thread hq t).2]
    have hlow := h.low t
    simp only [Sys.timing, Thread.timing] at hlow
    split <;> omega
  · show (s.charged.thread t).recentCpu ≤ _
    rw [(charged_thread hq t).2]
    split
    · next ht =>
      have hin : t ∈ s.timing.allList := hlist t (by simp [ht.1, hq.status_running])
      have hlisted := h.listed t hin
      simp only [Sys.timing, Thread.timing] at hlisted
      omega
    · rw [Int.add_zero]
      exact h.high t
  · show (s.charged.thread t).recentCpu ≤ _
    have hin : t ∈ s.allList := by
      rw [← hall]
      exact ht
    have hlisted := h.listed t hin
    simp only [Sys.timing, Thread.timing] at hlisted
    rw [(charged_thread hq t).2]
    split <;> omega
  · show (s.charged.thread idleThread).recentCpu = 0
    rw [(charged_thread hq _).2, if_neg fun h => h.2 rfl, Int.add_zero]
    exact h.idle

/-- A second turns. -/
theorem Accrued.update (h : Accrued N 100 s.timing) (hready : Machine.ready s ≤ N) :
    Accrued N 0 (s.mlfqsUpdateLoadAvg.threadForeach fun t =>
      { t with recentCpu := Sys.mlfqsRecentCpu s.mlfqsUpdateLoadAvg.loadAvg t }).timing := by
  have hnonneg : 0 ≤ Machine.ready s := by
    unfold Machine.ready
    split <;> omega
  obtain ⟨hl, hl'⟩ : 0 ≤ s.mlfqsUpdateLoadAvg.loadAvg ∧ s.mlfqsUpdateLoadAvg.loadAvg ≤ N * 16384 :=
    mlfqsUpdateLoadAvg_bounds h.loadAvg_nonneg h.loadAvg_le hnonneg hready
  obtain ⟨x, hx⟩ : ∃ x : Sys, x = s.mlfqsUpdateLoadAvg.threadForeach fun t =>
      { t with recentCpu := Sys.mlfqsRecentCpu s.mlfqsUpdateLoadAvg.loadAvg t } := ⟨_, rfl⟩
  have hthread : ∀ t, (x.thread t).nice = (s.thread t).nice ∧ (x.thread t).recentCpu =
      if t ∈ s.allList ∧ t ≠ idleThread then
        Sys.mlfqsRecentCpu s.mlfqsUpdateLoadAvg.loadAvg (s.thread t)
      else (s.thread t).recentCpu := by
    intro t
    rw [hx, Sys.threadForeach_thread]
    show (if t ∈ s.allList ∧ t ≠ idleThread then _ else _ : Thread).nice = _ ∧
      (if t ∈ s.allList ∧ t ≠ idleThread then _ else _ : Thread).recentCpu = _
    split
    · exact ⟨rfl, rfl⟩
    · exact ⟨rfl, rfl⟩
  have hbounds : ∀ t, -20 * (2 * N + 1) * 16384 ≤
      Sys.mlfqsRecentCpu s.mlfqsUpdateLoadAvg.loadAvg (s.thread t) ∧
        Sys.mlfqsRecentCpu s.mlfqsUpdateLoadAvg.loadAvg (s.thread t) ≤
          120 * (2 * N + 1) * 16384 := fun t =>
    mlfqsRecentCpu_bounds hl hl' (h.low t) (h.high t) (h.nice t).1 (h.nice t).2
  rw [← hx]
  refine ⟨?_, ?_, fun t => ?_, fun t => ?_, fun t => ?_, fun t ht => ?_, ?_⟩
  · rw [hx]
    exact hl
  · rw [hx]
    exact hl'
  · show -20 ≤ (x.thread t).nice ∧ (x.thread t).nice ≤ 20
    rw [(hthread t).1]
    exact h.nice t
  · show _ ≤ (x.thread t).recentCpu
    rw [(hthread t).2]
    split
    · exact (hbounds t).1
    · exact h.low t
  · show (x.thread t).recentCpu ≤ _
    rw [(hthread t).2]
    split
    · have := (hbounds t).2
      omega
    · exact h.high t
  · show (x.thread t).recentCpu ≤ _
    rw [(hthread t).2]
    split
    · have := (hbounds t).2
      omega
    · next hne =>
      have hin : t ∈ s.allList := by
        rw [hx] at ht
        exact ht
      -- who is left out of the update is the idle thread, which has used no time
      have hidle : t = idleThread := by
        by_contra hne'
        exact hne ⟨hin, hne'⟩
      have hzero : (s.thread t).recentCpu = 0 := hidle ▸ h.idle
      omega
  · show (x.thread idleThread).recentCpu = 0
    rw [(hthread _).2, if_neg fun h => h.2 rfl]
    exact h.idle

/-- The state in `timer_interrupt` before the priorities are updated. -/
def Sys.averaged (s : Sys) : Sys :=
  if s.charged.ticks % timerFreq = 0 then
    s.charged.mlfqsUpdateLoadAvg.threadForeach fun t =>
      { t with recentCpu := Sys.mlfqsRecentCpu s.charged.mlfqsUpdateLoadAvg.loadAvg t }
  else s.charged

/-- What the interrupt does in the MLFQS mode. -/
theorem timerInterrupt_mlfqs (hm : s.mlfqs = true) : s.timerInterrupt =
    if s.averaged.ticks % 4 = 0 then
      s.averaged.threadForeach fun t => { t with priority := Sys.mlfqsPriority t }
    else s.averaged := by
  have hm' : s.awoken.mlfqs = true :=
    (congrArg Prod.fst (wakeThreads_fixed s.waitingThreads s.ticked)).trans hm
  have hdef : s.timerInterrupt = if s.awoken.mlfqs then s.awoken.mlfqsTick else s.awoken := rfl
  rw [hdef, if_pos hm']
  rfl

theorem prioritized_timing (s : Sys) :
    (s.threadForeach fun t => { t with priority := Sys.mlfqsPriority t }).timing = s.timing := by
  refine congrArg (Timing.mk _ _ _ _) (funext fun t => ?_)
  rw [Sys.threadForeach_thread]
  split
  · rfl
  · rfl

theorem ready_charged (s : Sys) : Machine.ready s.charged = Machine.ready s.awoken := by
  have hsame : s.charged.readyList = s.awoken.readyList ∧ s.charged.running = s.awoken.running := by
    unfold Sys.charged Sys.mlfqsIncreaseRunningRecentCpu
    split
    · exact ⟨rfl, rfl⟩
    · exact ⟨rfl, rfl⟩
  rw [Machine.ready, Machine.ready, hsame.1, hsame.2]

theorem Accrued.average (h : Accrued N (s.ticks % 100) s.timing) (hlist : AllListed s)
    (hq : Queued s (some s.running) none) (hcond : Loaded N s .tick) :
    Accrued N ((s.ticks + 1) % 100) s.averaged.timing := by
  have hcharged := h.charge hlist hq
  unfold Sys.averaged
  rw [(charged_eq hq).2.2]
  split
  · next hturn =>
    have hturn' : (s.ticks + 1) % 100 = 0 := hturn
    have hfull : s.ticks % 100 + 1 = 100 := by omega
    have hready := hcond hturn
    rw [← ready_charged] at hready
    rw [hfull] at hcharged
    rw [hturn']
    exact hcharged.update hready
  · next hturn =>
    have hturn' : (s.ticks + 1) % 100 ≠ 0 := hturn
    have hnext : (s.ticks + 1) % 100 = s.ticks % 100 + 1 := by omega
    rw [hnext]
    exact hcharged

theorem Accrued.tick (h : Accrued N (s.ticks % 100) s.timing) (hm : s.mlfqs = true)
    (hlist : AllListed s) (hq : Queued s (some s.running) none) (hcond : Loaded N s .tick) :
    Accrued N (s.tick.ticks % 100) s.tick.timing := by
  have htick : s.tick.ticks = s.ticks + 1 := (tick_naps hq).2.1
  rw [htick, tick_timing, timerInterrupt_mlfqs hm]
  split
  · rw [prioritized_timing]
    exact h.average hlist hq hcond
  · exact h.average hlist hq hcond

theorem Counting.reachable (h : Counting N s) : Reachable (Loaded N) s := by
  induction h with
  | init => exact .init (.intro ..)
  | step a _ henabled hcond hs ih => exact .step a ih henabled hcond hs

theorem Counting.accrued (h : Counting N s) :
    s.mlfqs = true ∧ Accrued N (s.ticks % 100) s.timing := by
  induction h with
  | init condLock unset values ticks threadTicks priority =>
    have hthread : ∀ t, (Sys.init true condLock unset values ticks threadTicks priority 0
        0).timing.thread t = ⟨0, 0, 0⟩ := by
      intro t
      show ThreadTiming.mk 0 0 (if t = initialThread then 0 else 0) = _
      rw [ite_self]
    have hticks : 0 ≤ ticks % 100 := Int.emod_nonneg _ (by decide)
    refine ⟨rfl, Int.le_refl _, ?_, fun t => ?_, fun t => ?_, fun t => ?_, fun t _ => ?_, ?_⟩
    · show (0 : Int) ≤ N * 16384
      omega
    · rw [hthread]
      exact ⟨by decide, by decide⟩
    · rw [hthread]
      dsimp only
      omega
    · rw [hthread]
      dsimp only
      omega
    · rw [hthread]
      show (0 : Int) ≤ (120 * (2 * N + 1) + ticks % 100) * 16384
      omega
    · rw [hthread]
  | @step s s' a hr henabled hcond hs ih =>
    obtain ⟨hm, h⟩ := ih
    have hq := hr.reachable.queued
    refine ⟨(step_fixed henabled hs).1.trans hm, ?_⟩
    cases a with
    | call c =>
      have htiming := call_timing hs
      have hticks : s'.ticks = s.ticks := by
        refine (congrArg (·.ticks) htiming).trans ?_
        cases c with
        | sleep n =>
          rw [Sys.timingAfter]
          split <;> rfl
        | _ => rfl
      rw [hticks, htiming]
      exact h.call hcond hq.idle.2.2
    | go =>
      obtain ⟨i, rest, -, hexec⟩ := go_cases henabled hs
      have hpop : s.pop.timing = s.timing := setThread_timing _ _ fun _ => rfl
      have htiming := (exec_timing hexec).trans hpop
      have hticks : s'.ticks = s.ticks := congrArg (·.ticks) htiming
      rw [hticks, htiming]
      exact h
    | tick =>
      cases hs
      exact h.tick hm hr.reachable.allListed hq hcond
    | split =>
      cases split_tick hs
      exact h.tick hm hr.reachable.allListed hq hcond

/-! ## The machine -/

theorem Accrued.small (h : Accrued N since s.timing) (hN : N ≤ 1300) (t : Tid) :
    (s.thread t).Small := by
  have hlow := h.low t
  have hhigh := h.high t
  simp only [Sys.timing, Thread.timing] at hlow hhigh
  exact ⟨by omega, by omega, (h.nice t).1, (h.nice t).2⟩

theorem Accrued.load (h : Accrued N since s.timing) (hN : N ≤ 1300) : s.loadAvg ≤ 21299200 := by
  have hload : s.loadAvg ≤ N * 16384 := h.loadAvg_le
  omega

namespace Machine

theorem threadForeach_eq {f : Thread → Option Thread} {g : Thread → Thread}
    (h : ∀ t ∈ s.allList, f (s.thread t) = some (g (s.thread t))) :
    threadForeach s f = some (s.threadForeach g) := by
  rw [threadForeach, if_pos fun t ht _ => by rw [h t ht]; rfl]
  refine congrArg some (congrArg (fun thread => { s with thread := thread }) (funext fun t => ?_))
  split
  · next ht =>
    show (f (s.thread t)).getD (s.thread t) = g (s.thread t)
    rw [h t ht.1]
    rfl
  · rfl

/-- The interrupt computes in the machine what it does in exact arithmetic. -/
theorem timerInterrupt_eq (hN : N ≤ 1300) (h : Accrued N (s.ticks % 100) s.timing)
    (hm : s.mlfqs = true) (hlist : AllListed s) (hq : Queued s (some s.running) none)
    (hcond : Loaded N s .tick) : timerInterrupt s = some s.timerInterrupt := by
  have hm' : s.awoken.mlfqs = true :=
    (congrArg Prod.fst (wakeThreads_fixed s.waitingThreads s.ticked)).trans hm
  have hdef : timerInterrupt s = if s.awoken.mlfqs then mlfqsTick s.awoken else some s.awoken := rfl
  have hcharged := h.charge hlist hq
  have hcharge : mlfqsIncreaseRunningRecentCpu s.awoken = some s.charged := by
    refine mlfqsIncreaseRunningRecentCpu_eq ?_
    have hrunning : s.awoken.running = s.running := wakeThreads_running _ _
    have hsmall := h.small hN s.running
    have hthread : (s.awoken.thread s.running).timing = (s.thread s.running).timing :=
      congrArg (fun x : Timing => x.thread s.running) (awoken_timing hq)
    have hnice : (s.awoken.thread s.running).nice = (s.thread s.running).nice :=
      congrArg ThreadTiming.nice hthread
    have hrecent : (s.awoken.thread s.running).recentCpu = (s.thread s.running).recentCpu :=
      congrArg ThreadTiming.recentCpu hthread
    rw [hrunning]
    exact ⟨hrecent ▸ hsmall.recentCpu_ge, hrecent ▸ hsmall.recentCpu_le, hnice ▸ hsmall.nice_ge,
      hnice ▸ hsmall.nice_le⟩
  have haverage : mlfqsSecond s.charged = some s.averaged := by
    rw [mlfqsSecond, Sys.averaged]
    split
    · next hturn =>
      rw [(charged_eq hq).2.2] at hturn
      have hready : ready s.charged ≤ N := by
        rw [ready_charged]
        exact hcond hturn
      have hnonneg : 0 ≤ ready s.charged := by
        unfold ready
        split <;> omega
      obtain ⟨hl, hl'⟩ : 0 ≤ s.charged.mlfqsUpdateLoadAvg.loadAvg ∧
          s.charged.mlfqsUpdateLoadAvg.loadAvg ≤ N * 16384 :=
        mlfqsUpdateLoadAvg_bounds hcharged.loadAvg_nonneg hcharged.loadAvg_le hnonneg hready
      rw [mlfqsUpdateLoadAvg_eq hcharged.loadAvg_nonneg (hcharged.load hN) (by omega)]
      exact threadForeach_eq fun t _ =>
        mlfqsUpdateEachRecentCpu_eq (hcharged.small hN t) hl (by omega)
    · rfl
  have hpriority : (if s.averaged.ticks % 4 = 0 then threadForeach s.averaged mlfqsUpdatePriority
      else some s.averaged) = some s.timerInterrupt := by
    rw [timerInterrupt_mlfqs hm]
    split
    · exact threadForeach_eq fun t _ =>
        mlfqsUpdatePriority_eq ((h.average hlist hq hcond).small hN t)
    · rfl
  rw [hdef, if_pos hm', mlfqsTick, hcharge, Option.bind_eq_bind, Option.bind_some, haverage]
  exact hpriority

theorem threadSetNice_eq {nice : Int} (hN : N ≤ 1300) (h : Accrued N since s.timing)
    (hn : -20 ≤ nice) (hn' : nice ≤ 20) : threadSetNice s nice = some (s.threadSetNice nice) := by
  have hsmall := h.small hN s.running
  have hpriority := mlfqsUpdatePriority_eq (r := { s.thread s.running with nice })
    ⟨hsmall.recentCpu_ge, hsmall.recentCpu_le, hn, hn'⟩
  rw [threadSetNice, Sys.threadSetNice]
  by_cases hi : s.running ≠ idleThread
  · simp only [if_pos hi, hpriority]
    rfl
  · simp only [if_neg hi]
    rfl

end Machine

/-! ## The result -/

/-- The bounds for at most `N` threads. -/
structure InRange (N : Nat) (s : Sys) : Prop where
  loadAvg_nonneg : 0 ≤ s.loadAvg
  loadAvg_le : s.loadAvg ≤ N * 2 ^ 14
  /-- The coefficient of `recent_cpu`. -/
  decay : ∃ c, (Machine.decay s.loadAvg).Has .int64 c ∧ 0 ≤ c ∧ c < 2 ^ 14
  recentCpu_ge : ∀ t, -20 * (2 * N + 1) * 2 ^ 14 ≤ (s.thread t).recentCpu
  recentCpu_le : ∀ t, (s.thread t).recentCpu ≤ (120 * (2 * N + 1) + 100) * 2 ^ 14

/-- What MLFQS computes is in range. Where the machine gives the same as exact arithmetic, no
operator has overflowed, and no conversion to `int` has lost anything. -/
structure MlfqsInRange (N : Nat) (s : Sys) : Prop where
  between : InRange N s
  /-- On the way through the next interrupt, too. -/
  during : Loaded N s .tick → InRange N s.charged ∧ InRange N s.averaged
  interrupt : Loaded N s .tick → Machine.timerInterrupt s = some s.timerInterrupt
  setNice : ∀ nice, -20 ≤ nice → nice ≤ 20 →
    Machine.threadSetNice s nice = some (s.threadSetNice nice)
  getLoadAvg : (Machine.threadGetLoadAvg s).Has .int (Sys.fpNearest (s.loadAvg * 100))
  getRecentCpu : ∀ t, (Machine.threadGetRecentCpu (s.thread t)).Has .int
    (Sys.fpNearest ((s.thread t).recentCpu * 100))
  priority : ∀ r, priMin ≤ Sys.mlfqsPriority r ∧ Sys.mlfqsPriority r ≤ priMax
  antitone : ∀ r r' : Thread, r.recentCpu ≤ r'.recentCpu → r.nice ≤ r'.nice →
    Sys.mlfqsPriority r' ≤ Sys.mlfqsPriority r

theorem Accrued.inRange (h : Accrued N since s.timing) (hN : N ≤ 1300) : InRange N s := by
  have hload : s.loadAvg ≤ N * 16384 := h.loadAvg_le
  obtain ⟨hc, hc', -⟩ := decay_bounds h.loadAvg_nonneg h.loadAvg_le
  exact ⟨h.loadAvg_nonneg, hload, ⟨_, Machine.has_decay h.loadAvg_nonneg (h.load hN), hc, hc'⟩,
    h.low, h.high⟩

theorem mlfqsPriority_bounds (r : Thread) :
    priMin ≤ Sys.mlfqsPriority r ∧ Sys.mlfqsPriority r ≤ priMax := by
  unfold Sys.mlfqsPriority
  dsimp only
  split
  · exact ⟨Int.le_refl _, by decide⟩
  · split
    · exact ⟨by decide, Int.le_refl _⟩
    · omega

/-- A thread that has run more or is nicer gets no higher priority. -/
theorem mlfqsPriority_antitone {r r' : Thread} (hr : r.recentCpu ≤ r'.recentCpu)
    (hn : r.nice ≤ r'.nice) : Sys.mlfqsPriority r' ≤ Sys.mlfqsPriority r := by
  have hquarter : r.recentCpu.tdiv 4 ≤ r'.recentCpu.tdiv 4 := Int.tdiv_le_tdiv (by decide) hr
  have hnearest : Sys.fpNearest (priMax * Sys.fpOne - r'.recentCpu.tdiv 4 - 2 * r'.nice * Sys.fpOne) ≤
      Sys.fpNearest (priMax * Sys.fpOne - r.recentCpu.tdiv 4 - 2 * r.nice * Sys.fpOne) := by
    refine fpNearest_mono ?_
    simp only [Sys.fpOne, priMax]
    omega
  unfold Sys.mlfqsPriority
  dsimp only
  generalize Sys.fpNearest (priMax * Sys.fpOne - r'.recentCpu.tdiv 4 - 2 * r'.nice * Sys.fpOne) = x' at *
  generalize Sys.fpNearest (priMax * Sys.fpOne - r.recentCpu.tdiv 4 - 2 * r.nice * Sys.fpOne) = x at *
  simp only [priMin, priMax]
  split <;> split <;> (try split) <;> (try split) <;> omega

/-- With up to 1300 threads, MLFQS stays in range in every run. -/
theorem mlfqs_in_range (hN : N ≤ 1300) (h : Counting N s) : MlfqsInRange N s := by
  obtain ⟨hm, haccrued⟩ := h.accrued
  have hq := h.reachable.queued
  have hlist := h.reachable.allListed
  exact {
    between := haccrued.inRange hN
    during := fun hcond =>
      ⟨(haccrued.charge hlist hq).inRange hN, (haccrued.average hlist hq hcond).inRange hN⟩
    interrupt := Machine.timerInterrupt_eq hN haccrued hm hlist hq
    setNice := fun _ hn hn' => Machine.threadSetNice_eq hN haccrued hn hn'
    getLoadAvg := Machine.has_getLoadAvg haccrued.loadAvg_nonneg (haccrued.load hN)
    getRecentCpu := fun t => Machine.has_getRecentCpu (haccrued.small hN t)
    priority := mlfqsPriority_bounds
    antitone := fun _ _ => mlfqsPriority_antitone }

/-- The main thread runs for a second by itself. -/
theorem mlfqs_in_range_main : MlfqsInRange 1300
    (Sys.init true (fun _ => 0) (fun _ => 0) (fun _ => 0) 99 0 63 0 0).tick :=
  mlfqs_in_range (Nat.le_refl _) (.step .tick (.init ..) (by decide) (fun _ => by decide) rfl)

end Pintos.Schedule

import TinkoffChat.OperationQueue
import Mathlib.Algebra.BigOperators.Group.List.Basic
import Mathlib.Algebra.Ring.Nat
import Mathlib.Data.Nat.Find

/-!
A queue whose operations wait only for operations put on it before them never
gets stuck: the first one that has not finished can be started or run. If an
operation can pay for the operations that its main adds, every run of the queue
is bounded, so the queue drains whatever order it takes.
-/
namespace OperationQueue

open PartialRuns

variable {Op Input Env : Type*}

instance (e : Event Input) : Decidable e.IsCancel :=
  match e with
  | .cancel _ => isTrue trivial
  | .start _ => isFalse id
  | .main _ _ => isFalse id

/-- Every operation waits only for operations before it. -/
def State.Backward (s : State Op Env) : Prop :=
  ∀ (i : ℕ) (x : Entry Op), s.entries[i]? = some x → ∀ d ∈ x.dependencies, d < i

/-- Operations added behind the given number of operations wait only for operations before
them. -/
def AddsBackward (base : ℕ) (added : List (Op × List ℕ)) : Prop :=
  ∀ (k : ℕ) (a : Op × List ℕ), added[k]? = some a → ∀ d ∈ a.2, d < base + k

/-- What is left to do on an operation: being started and running its main, which costs as
much as the operations that it may add. -/
def Entry.work (cost : Op → ℕ) (x : Entry Op) : ℕ :=
  match x.phase with
  | .pending => cost x.op + 2
  | .executing => cost x.op + 1
  | .skipped | .done => 0

def State.work (cost : Op → ℕ) (s : State Op Env) : ℕ := (s.entries.map (Entry.work cost)).sum

/-- The work that added operations bring. -/
def addedWork (cost : Op → ℕ) (added : List (Op × List ℕ)) : ℕ :=
  (added.map fun a => cost a.1 + 2).sum

/-- Nothing can be started or run. -/
def Stuck (main : Main Op Input Env) (s : State Op Env) : Prop :=
  ∀ e : Event Input, ¬ e.IsCancel → step main s e = none

variable {main : Main Op Input Env} {s t : State Op Env} {i : ℕ} {x y : Entry Op}

section Backward

theorem addOperations_backward (hs : s.Backward) {added : List (Op × List ℕ)}
    (hadded : AddsBackward s.entries.length added) : (s.addOperations added).Backward := by
  intro i x hx d hd
  rcases entry_addOperations_cases hx with hold | ⟨k, a, rfl, ha, rfl⟩
  · exact hs i x hold d hd
  · exact hadded k a ha d hd

theorem replace_backward (hs : s.Backward) (hx : s.entries[i]? = some x)
    (hdependencies : y.dependencies = x.dependencies) : (s.replace i y).Backward := by
  intro j z hz d hd
  rcases entry_replace_cases hz with ⟨rfl, rfl⟩ | ⟨-, hold⟩
  · exact hs j x hx d (hdependencies ▸ hd)
  · exact hs j z hold d hd

theorem step_backward (hmain : ∀ entries i x input env,
      AddsBackward entries.length (main entries i x input env).added)
    {e : Event Input} (hs : s.Backward) (h : step main s e = some t) : t.Backward := by
  cases e with
  | cancel i =>
    obtain ⟨x, hx, rfl⟩ := cancel_eq_some.mp h
    exact replace_backward hs hx x.cancel_dependencies
  | start i =>
    obtain ⟨x, hx, -, -, rfl⟩ := start_eq_some.mp h
    exact replace_backward hs hx x.start_dependencies
  | main i input =>
    obtain ⟨x, hx, -, rfl⟩ := main_eq_some.mp h
    have hdone : (s.replace i { x with
        op := (main s.entries i x input s.env).op, phase := .done }).Backward :=
      replace_backward hs hx rfl
    refine addOperations_backward
      (s := ⟨s.entries.set i { x with op := (main s.entries i x input s.env).op, phase := .done },
        (main s.entries i x input s.env).env⟩) hdone ?_
    rw [List.length_set]
    exact hmain s.entries i x input s.env

/-- The first operation that has not finished can be started, or its main can run. -/
theorem exists_step_of_not_drained (hs : s.Backward) (h : ¬ s.Drained) :
    ∃ i, (∃ t, step main s (.start i) = some t) ∨
      ∀ input, ∃ t, step main s (.main i input) = some t := by
  have hlive : ∃ (i : ℕ) (x : Entry Op), s.entries[i]? = some x ∧ x.isFinished = false := by
    rw [State.Drained] at h
    push Not at h
    obtain ⟨x, hx, hlive⟩ := h
    obtain ⟨i, hi⟩ := List.mem_iff_getElem?.mp hx
    exact ⟨i, x, hi, Bool.eq_false_iff.mpr hlive⟩
  classical
  obtain ⟨x, hx, hunfinished⟩ := Nat.find_spec hlive
  have hbefore : ∀ d < Nat.find hlive, s.isFinishedAt d := by
    intro d hd
    obtain ⟨hlt, -⟩ := List.getElem?_eq_some_iff.mp hx
    obtain ⟨y, hy⟩ : ∃ y, s.entries[d]? = some y := ⟨_, List.getElem?_eq_getElem (hd.trans hlt)⟩
    refine isFinishedAt_iff.mpr ⟨_, hy, ?_⟩
    by_contra hnot
    exact Nat.find_min hlive hd ⟨_, hy, Bool.eq_false_iff.mpr hnot⟩
  refine ⟨Nat.find hlive, ?_⟩
  cases hphase : x.phase with
  | pending =>
    left
    refine ⟨_, start_eq_some.mpr ⟨x, hx, hphase, ?_, rfl⟩⟩
    have hready : x.dependencies.all s.isFinishedAt = true :=
      List.all_eq_true.mpr fun d hd => hbefore d (hs _ x hx d hd)
    rw [State.isReady, hready, Bool.or_true]
  | executing => exact Or.inr fun input => ⟨_, main_eq_some.mpr ⟨x, hx, hphase, rfl⟩⟩
  | skipped => simp [Entry.isFinished, hphase, Phase.isFinished] at hunfinished
  | done => simp [Entry.isFinished, hphase, Phase.isFinished] at hunfinished

theorem drained_of_stuck [Nonempty Input] (hs : s.Backward) (h : Stuck main s) : s.Drained := by
  by_contra hnot
  obtain ⟨i, ⟨t, ht⟩ | hmain⟩ := @exists_step_of_not_drained Op Input Env main s hs hnot
  · exact absurd ht (by simp [h (.start i) id])
  · obtain ⟨input⟩ := ‹Nonempty Input›
    obtain ⟨t, ht⟩ := hmain input
    exact absurd ht (by simp [h (.main i input) id])

end Backward

section Work

variable {cost : Op → ℕ}

theorem work_addOperations (cost : Op → ℕ) (s : State Op Env) (added : List (Op × List ℕ)) :
    (s.addOperations added).work cost = s.work cost + addedWork cost added := by
  simp only [State.work, State.addOperations, addedWork, List.map_append, List.sum_append,
    List.map_map]
  rfl

/-- Replacing an entry changes the work by its share. -/
theorem work_replace (cost : Op → ℕ) (hx : s.entries[i]? = some x) (y : Entry Op) :
    (s.replace i y).work cost + x.work cost = s.work cost + y.work cost := by
  obtain ⟨hlt, rfl⟩ := List.getElem?_eq_some_iff.mp hx
  have hold := ((List.getElem_cons_eraseIdx_perm hlt).map (Entry.work cost)).sum_eq
  have hnew := ((List.set_perm_cons_eraseIdx hlt y).map (Entry.work cost)).sum_eq
  rw [List.map_cons, List.sum_cons] at hold hnew
  simp only [State.work, State.replace]
  omega

theorem work_cancel (cost : Op → ℕ) (x : Entry Op) : x.cancel.work cost = x.work cost := by
  rw [Entry.work, Entry.work, x.cancel_phase, x.cancel_op]

theorem work_start (hx : x.phase = .pending) : x.start.work cost < x.work cost := by
  cases hc : x.isCancelled <;> simp [Entry.work, Entry.start, hx, hc]

/-- Starting an operation or running a main leaves less to do, and cancelling no more. -/
theorem step_work (hmain : ∀ entries i x input env,
      addedWork cost (main entries i x input env).added ≤ cost x.op)
    {e : Event Input} (h : step main s e = some t) :
    t.work cost + (if e.IsCancel then 0 else 1) ≤ s.work cost := by
  cases e with
  | cancel i =>
    obtain ⟨x, hx, rfl⟩ := cancel_eq_some.mp h
    have hwork := work_replace cost hx x.cancel
    rw [work_cancel] at hwork
    rw [if_pos (show (Event.cancel i : Event Input).IsCancel from trivial)]
    omega
  | start i =>
    obtain ⟨x, hx, hpending, -, rfl⟩ := start_eq_some.mp h
    have hwork := work_replace cost hx x.start
    have hless : x.start.work cost < x.work cost := work_start hpending
    rw [if_neg (show ¬ (Event.start i : Event Input).IsCancel from id)]
    omega
  | main i input =>
    obtain ⟨x, hx, hexecuting, rfl⟩ := main_eq_some.mp h
    have hadded := hmain s.entries i x input s.env
    have hwork := work_replace cost hx
      { x with op := (main s.entries i x input s.env).op, phase := .done }
    have hshare : x.work cost = cost x.op + 1 := by rw [Entry.work, hexecuting]
    have hdone : Entry.work cost
        { x with op := (main s.entries i x input s.env).op, phase := .done } = 0 := rfl
    have hfinish : (s.finish i x (main s.entries i x input s.env)).work cost =
        (s.replace i { x with op := (main s.entries i x input s.env).op, phase := .done }).work
          cost + addedWork cost (main s.entries i x input s.env).added :=
      work_addOperations cost _ _
    rw [if_neg (show ¬ (Event.main i input).IsCancel from id)]
    omega

/-- A run of the queue starts operations and runs mains no more often than there was to do. -/
theorem run_work (hmain : ∀ entries i x input env,
      addedWork cost (main entries i x input env).added ≤ cost x.op)
    {es : List (Event Input)} (h : run (step main) s es = some t) :
    t.work cost + es.countP (fun e => ¬ e.IsCancel) ≤ s.work cost := by
  induction es generalizing s with
  | nil =>
    obtain rfl : s = t := Option.some.inj h
    exact Nat.le_refl _
  | cons e es ih =>
    obtain ⟨u, hu, hrest⟩ := run_cons_eq_some.mp h
    have hfirst := step_work hmain hu
    have hlater := ih hrest
    rw [List.countP_cons]
    by_cases he : e.IsCancel
    · simp only [he, if_true, not_true, decide_false, Bool.false_eq_true, if_false] at hfirst ⊢
      omega
    · simp only [he, if_false, not_false_eq_true, decide_true, if_true] at hfirst ⊢
      omega

/-- Some run without cancellation goes on until nothing can be started or run. -/
theorem exists_run_stuck (hmain : ∀ entries i x input env,
      addedWork cost (main entries i x input env).added ≤ cost x.op) (s : State Op Env) :
    ∃ (es : List (Event Input)) (t : State Op Env), (∀ e ∈ es, ¬ e.IsCancel) ∧
      run (step main) s es = some t ∧ Stuck main t := by
  induction hwork : s.work cost using Nat.strongRecOn generalizing s with
  | ind n ih =>
    by_cases hstuck : Stuck main s
    · exact ⟨[], s, by simp, rfl, hstuck⟩
    · simp only [Stuck] at hstuck
      push Not at hstuck
      obtain ⟨e, he, hstep⟩ := hstuck
      obtain ⟨u, hu⟩ := Option.ne_none_iff_exists'.mp hstep
      have hless := step_work hmain hu
      rw [if_neg he] at hless
      obtain ⟨es, t, hes, hrun, ht⟩ := ih (u.work cost) (by omega) u rfl
      refine ⟨e :: es, t, ?_, by rw [run_cons_of_step hu, hrun], ht⟩
      intro f hf
      rcases List.mem_cons.mp hf with rfl | hf
      · exact he
      · exact hes f hf

end Work

end OperationQueue

import TinkoffChat.PartialRuns
import Mathlib.Data.List.Basic

/-!
A concurrent queue of operations with dependencies and cancellation. An entry
is started once it is ready: all its dependencies have finished, or it has been
cancelled. One that is cancelled when it is started finishes without running
its main; any other runs it later, as one event, and may be cancelled in
between. What main does is a parameter: it reads the fields of the other
operations, and it may put further operations on the queue.
-/
namespace OperationQueue

inductive Phase
  | pending | executing | skipped | done
  deriving DecidableEq

def Phase.isFinished : Phase → Bool
  | .pending | .executing => false
  | .skipped | .done => true

/-- An operation on the queue; dependencies are positions in the queue. -/
structure Entry (Op : Type*) where
  op : Op
  dependencies : List ℕ
  phase : Phase
  isCancelled : Bool

structure State (Op Env : Type*) where
  entries : List (Entry Op)
  env : Env

/-- What a main leaves: its operation, the environment and the operations it adds. -/
structure Outcome (Op Env : Type*) where
  op : Op
  env : Env
  added : List (Op × List ℕ)

inductive Event (Input : Type*)
  | cancel (index : ℕ)
  | start (index : ℕ)
  | main (index : ℕ) (input : Input)

variable {Op Input Env : Type*}

namespace Entry

def new (op : Op) (dependencies : List ℕ) : Entry Op := ⟨op, dependencies, .pending, false⟩

def isFinished (x : Entry Op) : Bool := x.phase.isFinished

/-- Cancelling an operation that has finished has no effect. -/
def cancel (x : Entry Op) : Entry Op := if x.isFinished then x else { x with isCancelled := true }

def start (x : Entry Op) : Entry Op :=
  { x with phase := if x.isCancelled then .skipped else .executing }

@[simp] theorem new_op (op : Op) (ds : List ℕ) : (new op ds).op = op := rfl

@[simp] theorem new_dependencies (op : Op) (ds : List ℕ) : (new op ds).dependencies = ds := rfl

@[simp] theorem new_isFinished (op : Op) (ds : List ℕ) : (new op ds).isFinished = false := rfl

@[simp] theorem start_op (x : Entry Op) : x.start.op = x.op := rfl

@[simp] theorem start_dependencies (x : Entry Op) : x.start.dependencies = x.dependencies := rfl

@[simp] theorem cancel_op (x : Entry Op) : x.cancel.op = x.op := by
  unfold cancel
  split <;> rfl

@[simp] theorem cancel_dependencies (x : Entry Op) : x.cancel.dependencies = x.dependencies := by
  unfold cancel
  split <;> rfl

@[simp] theorem cancel_phase (x : Entry Op) : x.cancel.phase = x.phase := by
  unfold cancel
  split <;> rfl

theorem start_isFinished (x : Entry Op) : x.start.isFinished = x.isCancelled := by
  cases h : x.isCancelled <;> simp [start, isFinished, Phase.isFinished, h]

theorem not_finished_of_pending {x : Entry Op} (h : x.phase = .pending) :
    x.isFinished = false := by
  rw [isFinished, h]
  rfl

theorem not_finished_of_executing {x : Entry Op} (h : x.phase = .executing) :
    x.isFinished = false := by
  rw [isFinished, h]
  rfl

end Entry

namespace State

def isFinishedAt (s : State Op Env) (i : ℕ) : Bool := (s.entries[i]?).any Entry.isFinished

/-- Cancelled operations are ready at once, the others after their dependencies. -/
def isReady (s : State Op Env) (x : Entry Op) : Bool :=
  x.isCancelled || x.dependencies.all s.isFinishedAt

/-- Every operation on the queue has finished. -/
def Drained (s : State Op Env) : Prop := ∀ x ∈ s.entries, x.isFinished

def replace (s : State Op Env) (i : ℕ) (y : Entry Op) : State Op Env :=
  { s with entries := s.entries.set i y }

def addOperations (s : State Op Env) (added : List (Op × List ℕ)) : State Op Env :=
  { s with entries := s.entries ++ added.map fun a => Entry.new a.1 a.2 }

/-- The entry at the index has run its main with the given outcome. -/
def finish (s : State Op Env) (i : ℕ) (x : Entry Op) (out : Outcome Op Env) : State Op Env :=
  State.addOperations ⟨s.entries.set i { x with op := out.op, phase := .done }, out.env⟩ out.added

/-- The operations with their dependencies, seen through a view of their fields. -/
def layout {β : Type*} (view : Op → β) (s : State Op Env) : List (β × List ℕ) :=
  s.entries.map fun x => (view x.op, x.dependencies)

end State

/-- What main of an operation does, from the operations on the queue and its own place. -/
abbrev Main (Op Input Env : Type*) :=
  List (Entry Op) → ℕ → Entry Op → Input → Env → Outcome Op Env

def step (main : Main Op Input Env) (s : State Op Env) : Event Input → Option (State Op Env)
  | .cancel index => s.entries[index]?.map fun x => s.replace index x.cancel
  | .start index => s.entries[index]?.bind fun x =>
      if x.phase = .pending ∧ s.isReady x then some (s.replace index x.start) else none
  | .main index input => s.entries[index]?.bind fun x =>
      if x.phase = .executing then
        some (s.finish index x (main s.entries index x input s.env))
      else none

variable {main : Main Op Input Env} {s t : State Op Env} {i j : ℕ} {x y z : Entry Op}

theorem cancel_eq_some : step main s (.cancel i) = some t ↔
    ∃ x, s.entries[i]? = some x ∧ t = s.replace i x.cancel := by
  rw [step, Option.map_eq_some_iff]
  constructor
  · rintro ⟨x, hx, rfl⟩
    exact ⟨x, hx, rfl⟩
  · rintro ⟨x, hx, rfl⟩
    exact ⟨x, hx, rfl⟩

theorem start_eq_some : step main s (.start i) = some t ↔
    ∃ x, s.entries[i]? = some x ∧ x.phase = .pending ∧ s.isReady x ∧ t = s.replace i x.start := by
  simp only [step, Option.bind_eq_some_iff, Option.ite_none_right_eq_some, and_assoc,
    Option.some.injEq]
  constructor
  · rintro ⟨x, hx, hpending, hready, rfl⟩
    exact ⟨x, hx, hpending, hready, rfl⟩
  · rintro ⟨x, hx, hpending, hready, rfl⟩
    exact ⟨x, hx, hpending, hready, rfl⟩

theorem main_eq_some {input : Input} : step main s (.main i input) = some t ↔
    ∃ x, s.entries[i]? = some x ∧ x.phase = .executing ∧
      t = s.finish i x (main s.entries i x input s.env) := by
  simp only [step, Option.bind_eq_some_iff, Option.ite_none_right_eq_some, Option.some.injEq]
  constructor
  · rintro ⟨x, hx, hexecuting, rfl⟩
    exact ⟨x, hx, hexecuting, rfl⟩
  · rintro ⟨x, hx, hexecuting, rfl⟩
    exact ⟨x, hx, hexecuting, rfl⟩

theorem entry_replace_self (h : s.entries[i]? = some x) :
    (s.replace i y).entries[i]? = some y := by
  obtain ⟨hlt, -⟩ := List.getElem?_eq_some_iff.mp h
  exact List.getElem?_set_self hlt

theorem entry_replace_of_ne (h : i ≠ j) : (s.replace i y).entries[j]? = s.entries[j]? :=
  List.getElem?_set_ne h

theorem entry_addOperations {added : List (Op × List ℕ)} (h : s.entries[i]? = some x) :
    (s.addOperations added).entries[i]? = some x := by
  obtain ⟨hlt, -⟩ := List.getElem?_eq_some_iff.mp h
  exact (List.getElem?_append_left hlt).trans h

/-- An entry after operations were added stood there before, or is one of them. -/
theorem entry_addOperations_cases {added : List (Op × List ℕ)}
    (h : (s.addOperations added).entries[i]? = some x) :
    s.entries[i]? = some x ∨
      ∃ k a, i = s.entries.length + k ∧ added[k]? = some a ∧ x = Entry.new a.1 a.2 := by
  rcases Nat.lt_or_ge i s.entries.length with hlt | hge
  · exact Or.inl ((List.getElem?_append_left hlt).symm.trans h)
  · have hnew := (List.getElem?_append_right hge).symm.trans h
    rw [List.getElem?_map, Option.map_eq_some_iff] at hnew
    obtain ⟨a, ha, rfl⟩ := hnew
    exact Or.inr ⟨i - s.entries.length, a, by omega, ha, rfl⟩

theorem isFinishedAt_iff : s.isFinishedAt i = true ↔
    ∃ x, s.entries[i]? = some x ∧ x.isFinished := by
  rw [State.isFinishedAt, Option.any_eq_true]

theorem entry_replace_cases (h : (s.replace i y).entries[j]? = some z) :
    (j = i ∧ z = y) ∨ (j ≠ i ∧ s.entries[j]? = some z) := by
  by_cases hij : i = j
  · subst hij
    obtain ⟨hlt, -⟩ := List.getElem?_eq_some_iff.mp h
    rw [State.replace, List.length_set] at hlt
    have hself := (List.getElem?_set_self hlt).symm.trans h
    exact Or.inl ⟨rfl, (Option.some.inj hself).symm⟩
  · rw [entry_replace_of_ne hij] at h
    exact Or.inr ⟨Ne.symm hij, h⟩

theorem entry_finish_self {out : Outcome Op Env} (h : s.entries[i]? = some x) :
    (s.finish i x out).entries[i]? = some { x with op := out.op, phase := .done } :=
  entry_addOperations (entry_replace_self h)

theorem entry_finish_of_ne {out : Outcome Op Env} (h : s.entries[j]? = some z) (hij : i ≠ j) :
    (s.finish i x out).entries[j]? = some z :=
  entry_addOperations ((entry_replace_of_ne hij).trans h)

theorem entry_finish_cases {out : Outcome Op Env}
    (h : (s.finish i x out).entries[j]? = some z) :
    (j = i ∧ z = { x with op := out.op, phase := .done }) ∨
      (j ≠ i ∧ s.entries[j]? = some z) ∨
      ∃ k a, j = s.entries.length + k ∧ out.added[k]? = some a ∧ z = Entry.new a.1 a.2 := by
  rcases entry_addOperations_cases h with hold | ⟨k, a, hj, ha, hz⟩
  · rcases entry_replace_cases (s := s) hold with hself | hother
    · exact Or.inl hself
    · exact Or.inr (Or.inl hother)
  · refine Or.inr (Or.inr ⟨k, a, ?_, ha, hz⟩)
    rw [hj, List.length_set]

/-- An entry that has finished never changes again. -/
theorem step_frozen {e : Event Input} (h : step main s e = some t)
    (hz : s.entries[j]? = some z) (hfin : z.isFinished) : t.entries[j]? = some z := by
  cases e with
  | cancel i =>
    obtain ⟨x, hx, rfl⟩ := cancel_eq_some.mp h
    by_cases hij : i = j
    · subst hij
      obtain rfl : x = z := Option.some.inj (hx.symm.trans hz)
      rw [entry_replace_self hx, Entry.cancel, if_pos hfin]
    · exact (entry_replace_of_ne hij).trans hz
  | start i =>
    obtain ⟨x, hx, hpending, -, rfl⟩ := start_eq_some.mp h
    have hij : i ≠ j := by
      rintro rfl
      obtain rfl : x = z := Option.some.inj (hx.symm.trans hz)
      simp [Entry.not_finished_of_pending hpending] at hfin
    exact (entry_replace_of_ne hij).trans hz
  | main i input =>
    obtain ⟨x, hx, hexecuting, rfl⟩ := main_eq_some.mp h
    have hij : i ≠ j := by
      rintro rfl
      obtain rfl : x = z := Option.some.inj (hx.symm.trans hz)
      simp [Entry.not_finished_of_executing hexecuting] at hfin
    exact entry_finish_of_ne hz hij

theorem isFinishedAt_step {e : Event Input} (h : step main s e = some t)
    (hj : s.isFinishedAt j) : t.isFinishedAt j := by
  obtain ⟨z, hz, hfin⟩ := isFinishedAt_iff.mp hj
  exact isFinishedAt_iff.mpr ⟨z, step_frozen h hz hfin, hfin⟩

theorem isFinishedAt_addOperations {added : List (Op × List ℕ)} (hj : s.isFinishedAt j) :
    (s.addOperations added).isFinishedAt j := by
  obtain ⟨z, hz, hfin⟩ := isFinishedAt_iff.mp hj
  exact isFinishedAt_iff.mpr ⟨z, entry_addOperations hz, hfin⟩

namespace State

/-- What runs its main, or has run it, has only finished dependencies. -/
def Started (s : State Op Env) : Prop :=
  ∀ (i : ℕ) (x : Entry Op), s.entries[i]? = some x → x.phase = .executing ∨ x.phase = .done →
    ∀ d ∈ x.dependencies, s.isFinishedAt d

end State

theorem addOperations_started (hs : s.Started) (added : List (Op × List ℕ)) :
    (s.addOperations added).Started := by
  intro i x hx hphase d hd
  rcases entry_addOperations_cases hx with hold | ⟨k, a, -, -, rfl⟩
  · exact isFinishedAt_addOperations (hs i x hold hphase d hd)
  · rcases hphase with hphase | hphase <;> cases hphase

theorem step_started {e : Event Input} (h : step main s e = some t) (hs : s.Started) :
    t.Started := by
  intro j z hz hphase d hd
  apply isFinishedAt_step h
  cases e with
  | cancel i =>
    obtain ⟨x, hx, rfl⟩ := cancel_eq_some.mp h
    rcases entry_replace_cases hz with ⟨rfl, rfl⟩ | ⟨-, hold⟩
    · rw [Entry.cancel_phase] at hphase
      rw [Entry.cancel_dependencies] at hd
      exact hs j x hx hphase d hd
    · exact hs j z hold hphase d hd
  | start i =>
    obtain ⟨x, hx, -, hready, rfl⟩ := start_eq_some.mp h
    rcases entry_replace_cases hz with ⟨rfl, rfl⟩ | ⟨-, hold⟩
    · cases hc : x.isCancelled with
      | true => simp [Entry.start, hc] at hphase
      | false =>
        rw [State.isReady, hc, Bool.false_or, List.all_eq_true] at hready
        exact hready d hd
    · exact hs j z hold hphase d hd
  | main i input =>
    obtain ⟨x, hx, hexecuting, rfl⟩ := main_eq_some.mp h
    rcases entry_finish_cases hz with ⟨rfl, rfl⟩ | ⟨-, hold⟩ | ⟨k, a, -, -, rfl⟩
    · exact hs j x hx (Or.inl hexecuting) d hd
    · exact hs j z hold hphase d hd
    · rcases hphase with hphase | hphase <;> cases hphase

private theorem set_eq_self {α : Type*} {l : List α} {a : α} (h : l[i]? = some a) :
    l.set i a = l := by
  obtain ⟨hlt, rfl⟩ := List.getElem?_eq_some_iff.mp h
  exact List.set_getElem_self hlt

section Layout

variable {β : Type*} {view : Op → β}

theorem layout_addOperations (added : List (Op × List ℕ)) :
    (s.addOperations added).layout view =
      s.layout view ++ added.map fun a => (view a.1, a.2) := by
  simp [State.layout, State.addOperations, Function.comp_def]

theorem layout_replace (hx : s.entries[i]? = some x) (hop : view y.op = view x.op)
    (hdependencies : y.dependencies = x.dependencies) :
    (s.replace i y).layout view = s.layout view := by
  have hview : (s.layout view)[i]? = some (view x.op, x.dependencies) := by
    rw [State.layout, List.getElem?_map, hx]
    rfl
  rw [State.layout, State.replace, List.map_set, hop, hdependencies]
  exact set_eq_self hview

theorem layout_finish {out : Outcome Op Env} (hx : s.entries[i]? = some x)
    (hop : view out.op = view x.op) :
    (s.finish i x out).layout view =
      s.layout view ++ out.added.map fun a => (view a.1, a.2) := by
  rw [State.finish, layout_addOperations]
  congr 1
  exact layout_replace (y := { x with op := out.op, phase := .done }) hx hop rfl

end Layout

namespace State

/-- How many of the counted operations have not finished. -/
def live (counted : Op → Bool) (s : State Op Env) : ℕ :=
  s.entries.countP fun x => !x.isFinished && counted x.op

end State

section Live

variable (counted : Op → Bool)

theorem live_addOperations (added : List (Op × List ℕ)) :
    (s.addOperations added).live counted =
      s.live counted + added.countP fun a => counted a.1 := by
  simp [State.live, State.addOperations, List.countP_append, List.countP_map, Function.comp_def]

theorem live_replace (hx : s.entries[i]? = some x) (y : Entry Op) :
    (s.replace i y).live counted + (if !x.isFinished && counted x.op then 1 else 0) =
      s.live counted + if !y.isFinished && counted y.op then 1 else 0 := by
  obtain ⟨hlt, hget⟩ := List.getElem?_eq_some_iff.mp hx
  have hset := List.countP_set (p := fun x : Entry Op => !x.isFinished && counted x.op) (a := y) hlt
  have hpos : (if !x.isFinished && counted x.op then 1 else 0) ≤ s.live counted := by
    split
    · rename_i hcounted
      exact List.countP_pos_iff.mpr ⟨x, List.mem_of_getElem? hx, hcounted⟩
    · exact Nat.zero_le _
  simp only [hget] at hset
  simp only [State.live, State.replace] at hpos ⊢
  omega

theorem live_finish (hx : s.entries[i]? = some x) (hlive : x.isFinished = false)
    (out : Outcome Op Env) :
    (s.finish i x out).live counted + (if counted x.op then 1 else 0) =
      s.live counted + out.added.countP fun a => counted a.1 := by
  have hreplace := live_replace counted hx { x with op := out.op, phase := .done }
  have hdone : Entry.isFinished { x with op := out.op, phase := .done } = true := rfl
  rw [hlive, hdone] at hreplace
  simp only [Bool.not_false, Bool.true_and, Bool.not_true, Bool.false_and, Bool.false_eq_true,
    if_false] at hreplace
  rw [State.finish, live_addOperations]
  simp only [State.live, State.replace] at hreplace ⊢
  omega

theorem live_drained (hs : s.Drained) : s.live counted = 0 := by
  rw [State.live, List.countP_eq_zero]
  intro x hx
  simp [hs x hx]

end Live

namespace State

/-- The operations on the queue, each with whether it has finished. -/
def progress (s : State Op Env) : List (Op × Bool) := s.entries.map fun x => (x.op, x.isFinished)

/-- No operation still to run has been cancelled. -/
def Calm (s : State Op Env) : Prop :=
  ∀ (i : ℕ) (x : Entry Op), s.entries[i]? = some x → x.isFinished = false → x.isCancelled = false

end State

def Event.IsCancel : Event Input → Prop
  | .cancel _ => True
  | _ => False

section Calm

theorem progress_of_entry (h : s.entries[i]? = some x) :
    s.progress[i]? = some (x.op, x.isFinished) := by
  rw [State.progress, List.getElem?_map, h]
  rfl

theorem entry_of_progress {op : Op} {finished : Bool}
    (h : s.progress[i]? = some (op, finished)) :
    ∃ x, s.entries[i]? = some x ∧ x.op = op ∧ x.isFinished = finished := by
  rw [State.progress, List.getElem?_map, Option.map_eq_some_iff] at h
  obtain ⟨x, hx, heq⟩ := h
  rw [Prod.mk.injEq] at heq
  exact ⟨x, hx, heq⟩

theorem addOperations_calm (hs : s.Calm) (added : List (Op × List ℕ)) :
    (s.addOperations added).Calm := by
  intro i x hx hlive
  rcases entry_addOperations_cases hx with hold | ⟨k, a, -, -, rfl⟩
  · exact hs i x hold hlive
  · rfl

theorem drained_calm (hs : s.Drained) : s.Calm := by
  intro i x hx hlive
  rw [hs x (List.mem_of_getElem? hx)] at hlive
  cases hlive

/-- On a calm queue a step starts an operation, which changes no progress, or
runs the main of one that is not cancelled. -/
theorem calm_step_cases {e : Event Input} (hs : s.Calm) (he : ¬ e.IsCancel)
    (h : step main s e = some t) :
    (∃ i x, s.entries[i]? = some x ∧ x.phase = .pending ∧
      t = s.replace i { x with phase := .executing } ∧ t.progress = s.progress) ∨
    ∃ i x input, e = .main i input ∧ s.entries[i]? = some x ∧ x.phase = .executing ∧
      x.isCancelled = false ∧ t = s.finish i x (main s.entries i x input s.env) := by
  cases e with
  | cancel i => exact absurd trivial he
  | start i =>
    obtain ⟨x, hx, hpending, -, rfl⟩ := start_eq_some.mp h
    have hlive := Entry.not_finished_of_pending hpending
    have hstart : x.start = { x with phase := .executing } := by
      rw [Entry.start, hs i x hx hlive]
      rfl
    refine Or.inl ⟨i, x, hx, hpending, by rw [hstart], ?_⟩
    rw [State.progress, State.replace, List.map_set, x.start_op, x.start_isFinished,
      hs i x hx hlive, ← hlive]
    exact set_eq_self (progress_of_entry hx)
  | main i input =>
    obtain ⟨x, hx, hexecuting, rfl⟩ := main_eq_some.mp h
    exact Or.inr ⟨i, x, input, rfl, hx, hexecuting,
      hs i x hx (Entry.not_finished_of_executing hexecuting), rfl⟩

theorem step_calm {e : Event Input} (hs : s.Calm) (he : ¬ e.IsCancel)
    (h : step main s e = some t) : t.Calm := by
  rcases calm_step_cases hs he h with
    ⟨i, x, hx, hpending, rfl, -⟩ | ⟨i, x, input, -, hx, hexecuting, hcancelled, rfl⟩
  · intro j z hz hlive
    rcases entry_replace_cases hz with ⟨rfl, rfl⟩ | ⟨-, hold⟩
    · exact hs j x hx (Entry.not_finished_of_pending hpending)
    · exact hs j z hold hlive
  · intro j z hz hlive
    rcases entry_finish_cases hz with ⟨rfl, rfl⟩ | ⟨-, hold⟩ | ⟨k, a, -, -, rfl⟩
    · exact hcancelled
    · exact hs j z hold hlive
    · rfl

theorem progress_addOperations (added : List (Op × List ℕ)) :
    (s.addOperations added).progress = s.progress ++ added.map fun a => (a.1, false) := by
  simp [State.progress, State.addOperations, Function.comp_def]

/-- What is on the queue after operations were added was there before, or is new. -/
theorem progress_addOperations_cases {added : List (Op × List ℕ)} {op : Op} {finished : Bool}
    (h : (s.addOperations added).progress[i]? = some (op, finished)) :
    s.progress[i]? = some (op, finished) ∨
      finished = false ∧ ∃ k a, i = s.entries.length + k ∧ added[k]? = some a ∧ op = a.1 := by
  obtain ⟨x, hx, rfl, rfl⟩ := entry_of_progress h
  rcases entry_addOperations_cases hx with hold | ⟨k, a, hi, ha, rfl⟩
  · exact Or.inl (progress_of_entry hold)
  · exact Or.inr ⟨rfl, k, a, hi, ha, rfl⟩

theorem progress_addOperations_old {added : List (Op × List ℕ)} {p : Op × Bool}
    (h : s.progress[i]? = some p) : (s.addOperations added).progress[i]? = some p := by
  obtain ⟨hlt, -⟩ := List.getElem?_eq_some_iff.mp h
  rw [progress_addOperations, List.getElem?_append_left hlt, h]

theorem progress_addOperations_new {added : List (Op × List ℕ)} {k : ℕ} {a : Op × List ℕ}
    (h : added[k]? = some a) :
    (s.addOperations added).progress[s.entries.length + k]? = some (a.1, false) := by
  have hlength : s.progress.length = s.entries.length := List.length_map _
  rw [progress_addOperations, ← hlength, List.getElem?_append_right (Nat.le_add_right _ _),
    Nat.add_sub_cancel_left, List.getElem?_map, h]
  rfl

theorem progress_finish_cases {out : Outcome Op Env} {op : Op} {finished : Bool}
    (h : (s.finish i x out).progress[j]? = some (op, finished)) :
    (j = i ∧ op = out.op ∧ finished = true) ∨
      (j ≠ i ∧ s.progress[j]? = some (op, finished)) ∨
      finished = false ∧ s.entries.length ≤ j ∧ ∃ a ∈ out.added, op = a.1 := by
  obtain ⟨z, hz, rfl, rfl⟩ := entry_of_progress h
  rcases entry_finish_cases hz with ⟨rfl, rfl⟩ | ⟨hne, hold⟩ | ⟨k, a, rfl, ha, rfl⟩
  · exact Or.inl ⟨rfl, rfl, rfl⟩
  · exact Or.inr (Or.inl ⟨hne, progress_of_entry hold⟩)
  · exact Or.inr (Or.inr ⟨rfl, Nat.le_add_right _ _, a, List.mem_of_getElem? ha, rfl⟩)

theorem progress_finish_self (hx : s.entries[i]? = some x) (out : Outcome Op Env) :
    (s.finish i x out).progress[i]? = some (out.op, true) :=
  progress_of_entry (entry_finish_self hx)

theorem progress_finish_of_ne {p : Op × Bool} (h : s.progress[j]? = some p) (hij : j ≠ i)
    (out : Outcome Op Env) : (s.finish i x out).progress[j]? = some p := by
  obtain ⟨op, finished⟩ := p
  obtain ⟨z, hz, rfl, rfl⟩ := entry_of_progress h
  exact progress_of_entry (entry_finish_of_ne hz (Ne.symm hij))

theorem progress_finish_new {out : Outcome Op Env} {k : ℕ} {a : Op × List ℕ}
    (h : out.added[k]? = some a) :
    (s.finish i x out).progress[s.entries.length + k]? = some (a.1, false) := by
  have hlength : (s.entries.set i { x with op := out.op, phase := .done }).length =
      s.entries.length := List.length_set
  rw [State.finish, ← hlength]
  exact progress_addOperations_new h

end Calm

end OperationQueue

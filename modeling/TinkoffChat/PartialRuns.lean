import Mathlib.Data.Option.Basic
import Mathlib.Data.List.Perm.Basic
import Mathlib.Data.List.Induction

/-!
Finite runs of a partial step function. A step may refuse an event, and a run
exists only when no event of it is refused. Invariants are proved for one step
and carried along a run here, once. A condition on the steps of a run is
evaluated in the state that each step is taken from. An event may take one of
the things that wait, in any order, so it names the thing by its place.
-/
namespace PartialRuns

variable {S E : Type*}

/-- Take the events in order; `none` as soon as one of them is refused. -/
def run (step : S → E → Option S) : S → List E → Option S
  | s, [] => some s
  | s, e :: es => (step s e).bind fun t => run step t es

/-- Every step of the run satisfies P in the state before it. -/
def Along (step : S → E → Option S) (P : S → E → Prop) : S → List E → Prop
  | _, [] => True
  | s, e :: es => P s e ∧ ∀ t, step s e = some t → Along step P t es

def Reachable (step : S → E → Option S) (init s : S) : Prop :=
  ∃ es, run step init es = some s

variable {step : S → E → Option S}

@[simp] theorem run_nil (s : S) : run step s [] = some s := rfl

theorem run_cons (s : S) (e : E) (es : List E) :
    run step s (e :: es) = (step s e).bind fun t => run step t es := rfl

theorem run_cons_of_step {s t : S} {e : E} (h : step s e = some t) (es : List E) :
    run step s (e :: es) = run step t es := by
  rw [run_cons, h, Option.bind_some]

/-- A run of a nonempty list is its first step and the run of the rest. -/
theorem run_cons_eq_some {s u : S} {e : E} {es : List E} :
    run step s (e :: es) = some u ↔ ∃ t, step s e = some t ∧ run step t es = some u := by
  rw [run_cons, Option.bind_eq_some_iff]

theorem run_append_of_run {s t : S} {es fs : List E} (h : run step s es = some t) :
    run step s (es ++ fs) = run step t fs := by
  induction es generalizing s with
  | nil =>
    obtain rfl : s = t := Option.some.inj h
    rfl
  | cons e es ih =>
    obtain ⟨u, hu, hrest⟩ := run_cons_eq_some.mp h
    rw [List.cons_append, run_cons_of_step hu, ih hrest]

theorem run_concat_eq_some {s u : S} {e : E} {es : List E} :
    run step s (es ++ [e]) = some u ↔ ∃ t, run step s es = some t ∧ step t e = some u := by
  induction es generalizing s with
  | nil => simp [run_cons]
  | cons f es ih =>
    rw [List.cons_append, run_cons_eq_some]
    constructor
    · rintro ⟨r, hr, hrest⟩
      obtain ⟨t, ht, hlast⟩ := ih.mp hrest
      exact ⟨t, run_cons_eq_some.mpr ⟨r, hr, ht⟩, hlast⟩
    · rintro ⟨t, ht, hlast⟩
      obtain ⟨r, hr, hrest⟩ := run_cons_eq_some.mp ht
      exact ⟨r, hr, ih.mpr ⟨t, hrest, hlast⟩⟩

theorem along_cons_of_step {P : S → E → Prop} {s t : S} {e : E} {es : List E}
    (h : step s e = some t) : Along step P s (e :: es) ↔ P s e ∧ Along step P t es := by
  constructor
  · rintro ⟨hp, hes⟩
    exact ⟨hp, hes t h⟩
  · rintro ⟨hp, hes⟩
    refine ⟨hp, ?_⟩
    intro u hu
    obtain rfl : t = u := Option.some.inj (h.symm.trans hu)
    exact hes

theorem along_append_of_run {P : S → E → Prop} {s t : S} {es fs : List E}
    (h : run step s es = some t) :
    Along step P s (es ++ fs) ↔ Along step P s es ∧ Along step P t fs := by
  induction es generalizing s with
  | nil =>
    obtain rfl : s = t := Option.some.inj h
    exact (and_iff_right trivial).symm
  | cons e es ih =>
    obtain ⟨u, hu, hrest⟩ := run_cons_eq_some.mp h
    rw [List.cons_append, along_cons_of_step hu, along_cons_of_step hu, ih hrest, and_assoc]

theorem along_of_forall_mem {P : S → E → Prop} {es : List E} (hp : ∀ e ∈ es, ∀ s, P s e) (s : S) :
    Along step P s es := by
  induction es generalizing s with
  | nil => trivial
  | cons e es ih =>
    refine ⟨hp e (List.mem_cons_self ..) s, fun t _ => ?_⟩
    exact ih (fun e he => hp e (List.mem_cons_of_mem _ he)) t

theorem Along.and_of_forall_mem {P : S → E → Prop} {Q : E → Prop} {s : S} {es : List E}
    (h : Along step P s es) (hq : ∀ e ∈ es, Q e) : Along step (fun s e => P s e ∧ Q e) s es := by
  induction es generalizing s with
  | nil => trivial
  | cons e es ih =>
    obtain ⟨hp, hes⟩ := h
    refine ⟨⟨hp, hq e (List.mem_cons_self ..)⟩, fun t ht => ?_⟩
    exact ih (hes t ht) fun e he => hq e (List.mem_cons_of_mem _ he)

/-- What each step satisfying P preserves holds after a run of such steps. -/
theorem run_invariant_along {P : S → E → Prop} {Inv : S → Prop}
    (hstep : ∀ s e t, Inv s → P s e → step s e = some t → Inv t)
    {s u : S} {es : List E} (hs : Inv s) (ha : Along step P s es)
    (h : run step s es = some u) : Inv u := by
  induction es generalizing s with
  | nil =>
    obtain rfl : s = u := Option.some.inj h
    exact hs
  | cons e es ih =>
    obtain ⟨t, ht, hrest⟩ := run_cons_eq_some.mp h
    obtain ⟨hp, hes⟩ := ha
    exact ih (hstep s e t hs hp ht) (hes t ht) hrest

/-- A condition that an invariant implies for every step taken holds along the run. -/
theorem along_of_invariant {Inv : S → Prop} {P Q : S → E → Prop}
    (hstep : ∀ s e t, Inv s → Q s e → step s e = some t → Inv t)
    (hp : ∀ s e t, Inv s → Q s e → step s e = some t → P s e)
    {s u : S} {es : List E} (hs : Inv s) (ha : Along step Q s es)
    (h : run step s es = some u) : Along step P s es := by
  induction es generalizing s with
  | nil => trivial
  | cons e es ih =>
    obtain ⟨t, ht, hrest⟩ := run_cons_eq_some.mp h
    obtain ⟨hq, hes⟩ := ha
    rw [along_cons_of_step ht]
    exact ⟨hp s e t hs hq ht, ih (hstep s e t hs hq ht) (hes t ht) hrest⟩

/-- What every step preserves holds after every run. -/
theorem run_invariant {Inv : S → Prop}
    (hstep : ∀ s e t, Inv s → step s e = some t → Inv t)
    {s u : S} {es : List E} (hs : Inv s) (h : run step s es = some u) : Inv u :=
  run_invariant_along (P := fun _ _ => True) (fun s e t hi _ ht => hstep s e t hi ht) hs
    (along_of_forall_mem (fun _ _ _ => trivial) s) h

/-- Where a step leads to a good state exactly if it satisfies P and comes from a good one,
so does a run. -/
theorem run_iff_along {Inv Good : S → Prop} {P Q : S → E → Prop}
    (hstep : ∀ s e t, Inv s → Q s e → step s e = some t → Inv t)
    (hiff : ∀ s e t, Inv s → Q s e → step s e = some t → (Good t ↔ P s e ∧ Good s))
    {s u : S} {es : List E} (hs : Inv s) (ha : Along step Q s es)
    (h : run step s es = some u) : Good u ↔ Along step P s es ∧ Good s := by
  induction es generalizing s with
  | nil =>
    obtain rfl : s = u := Option.some.inj h
    exact (and_iff_right trivial).symm
  | cons e es ih =>
    obtain ⟨t, ht, hrest⟩ := run_cons_eq_some.mp h
    obtain ⟨hq, hes⟩ := ha
    rw [ih (hstep s e t hs hq ht) (hes t ht) hrest, hiff s e t hs hq ht, along_cons_of_step ht,
      and_left_comm, and_assoc]

/-- The same where the invariant is kept by every step. -/
theorem run_iff {Inv Good : S → Prop} {P : S → E → Prop}
    (hstep : ∀ s e t, Inv s → step s e = some t → Inv t)
    (hiff : ∀ s e t, Inv s → step s e = some t → (Good t ↔ P s e ∧ Good s))
    {s u : S} {es : List E} (hs : Inv s) (h : run step s es = some u) :
    Good u ↔ Along step P s es ∧ Good s :=
  run_iff_along (Q := fun _ _ => True) (fun s e t hi _ ht => hstep s e t hi ht)
    (fun s e t hi _ ht => hiff s e t hi ht) hs (along_of_forall_mem (fun _ _ _ => trivial) s) h

/-- Where nothing bad ever happened, a step that satisfies R leads to a good state, and keeps
the invariant, exactly when it satisfies P: all the states of a run whose steps satisfy R are
good if and only if all its steps satisfy P. -/
theorem forall_prefix_iff_along_of_along {Inv Good : S → Prop} {P R : S → E → Prop}
    (hgood : ∀ s, Inv s → Good s)
    (hiff : ∀ s e t, Inv s → R s e → step s e = some t → (Good t ↔ P s e))
    (hstep : ∀ s e t, Inv s → R s e → P s e → step s e = some t → Inv t)
    {s u : S} {es : List E} (hs : Inv s) (ha : Along step R s es) (h : run step s es = some u) :
    (∀ fs, fs <+: es → ∀ v, run step s fs = some v → Good v) ↔ Along step P s es := by
  induction es generalizing s with
  | nil =>
    refine iff_of_true ?_ trivial
    intro fs hfs v hv
    obtain rfl := List.prefix_nil.mp hfs
    obtain rfl : s = v := Option.some.inj hv
    exact hgood s hs
  | cons e es ih =>
    obtain ⟨t, ht, hrest⟩ := run_cons_eq_some.mp h
    obtain ⟨hr, hrs⟩ := (along_cons_of_step ht).mp ha
    rw [along_cons_of_step ht]
    constructor
    · intro hall
      have hfirst := hall [e] (List.prefix_append [e] es) t (by rw [run_cons_of_step ht, run_nil])
      have hp := (hiff s e t hs hr ht).mp hfirst
      refine ⟨hp, (ih (hstep s e t hs hr hp ht) hrs hrest).mp fun fs hfs v hv => ?_⟩
      exact hall (e :: fs) ((List.prefix_cons_inj e).mpr hfs) v (by rw [run_cons_of_step ht, hv])
    · rintro ⟨hp, hes⟩ fs hfs v hv
      cases fs with
      | nil =>
        obtain rfl : s = v := Option.some.inj hv
        exact hgood s hs
      | cons f fs =>
        obtain ⟨rfl, hfs'⟩ := List.cons_prefix_cons.mp hfs
        rw [run_cons_of_step ht] at hv
        exact (ih (hstep s f t hs hr hp ht) hrs hrest).mpr hes fs hfs' v hv

theorem forall_prefix_iff_along {Inv Good : S → Prop} {P : S → E → Prop}
    (hgood : ∀ s, Inv s → Good s)
    (hiff : ∀ s e t, Inv s → step s e = some t → (Good t ↔ P s e))
    (hstep : ∀ s e t, Inv s → P s e → step s e = some t → Inv t)
    {s u : S} {es : List E} (hs : Inv s) (h : run step s es = some u) :
    (∀ fs, fs <+: es → ∀ v, run step s fs = some v → Good v) ↔ Along step P s es :=
  forall_prefix_iff_along_of_along (R := fun _ _ => True) hgood
    (fun s e t hi _ => hiff s e t hi) (fun s e t hi _ => hstep s e t hi) hs
    (along_of_forall_mem (fun _ _ _ => trivial) s) h

/-- A run goes through exactly if none of its steps is refused. -/
theorem run_isSome_iff_along {Inv : S → Prop} {P R : S → E → Prop}
    (hstep : ∀ s e t, Inv s → R s e → step s e = some t → Inv t)
    (hiff : ∀ s e, Inv s → R s e → ((step s e).isSome ↔ P s e))
    {s : S} {es : List E} (hs : Inv s) (ha : Along step R s es) :
    (run step s es).isSome ↔ Along step P s es := by
  induction es generalizing s with
  | nil => exact iff_of_true rfl trivial
  | cons e es ih =>
    obtain ⟨hr, hrest⟩ := ha
    cases ht : step s e with
    | none =>
      have hp : ¬ P s e := fun hp => by simpa [ht] using (hiff s e hs hr).mpr hp
      rw [run_cons, ht]
      exact iff_of_false (by simp) fun h => hp h.1
    | some t =>
      have hp : P s e := (hiff s e hs hr).mp (by rw [ht, Option.isSome_some])
      rw [run_cons_of_step ht, along_cons_of_step ht, and_iff_right hp]
      exact ih (hstep s e t hs hr ht) (hrest t ht)

/-- What relates the run so far to the state it has led to, and is kept by one more step,
relates the whole run to its last state. -/
theorem run_history {Inv : List E → S → Prop} {s u : S} {es : List E} (hs : Inv [] s)
    (hstep : ∀ fs t e r, run step s fs = some t → Inv fs t → step t e = some r →
      Inv (fs ++ [e]) r)
    (h : run step s es = some u) : Inv es u := by
  induction es using List.reverseRecOn generalizing u with
  | nil =>
    obtain rfl : s = u := Option.some.inj h
    exact hs
  | append_singleton es e ih =>
    obtain ⟨t, ht, hlast⟩ := run_concat_eq_some.mp h
    exact hstep es t e u ht (ih ht) hlast

/-- A step of the run satisfies P, and no step after it satisfies Q. -/
def Since (step : S → E → Option S) (P Q : S → E → Prop) (s : S) (es : List E) : Prop :=
  ∃ before e after t u, es = before ++ e :: after ∧ run step s before = some t ∧ P t e ∧
    step t e = some u ∧ Along step (fun s e => ¬ Q s e) u after

theorem since_nil {P Q : S → E → Prop} {s : S} : ¬ Since step P Q s [] := by
  rintro ⟨before, e, after, t, u, heq, -⟩
  simp at heq

theorem since_concat {P Q : S → E → Prop} {s t u : S} {es : List E} {e : E}
    (h : run step s es = some t) (he : step t e = some u) :
    Since step P Q s (es ++ [e]) ↔ P t e ∨ Since step P Q s es ∧ ¬ Q t e := by
  constructor
  · rintro ⟨before, f, after, t', u', heq, hbefore, hp, hf, hafter⟩
    rcases List.eq_nil_or_concat after with rfl | ⟨rest, x, rfl⟩
    · obtain ⟨rfl, hlast⟩ := List.append_inj' heq rfl
      obtain rfl : t = t' := Option.some.inj (h.symm.trans hbefore)
      obtain rfl : e = f := (List.cons.inj hlast).1
      exact Or.inl hp
    · have hsplit : es ++ [e] = (before ++ f :: rest) ++ [x] := by simpa using heq
      obtain ⟨rfl, hlast⟩ := List.append_inj' hsplit rfl
      obtain rfl : e = x := (List.cons.inj hlast).1
      have hrest : run step u' rest = some t := by
        rwa [run_append_of_run hbefore, run_cons_of_step hf] at h
      rw [List.concat_eq_append, along_append_of_run hrest] at hafter
      exact Or.inr ⟨⟨before, f, rest, t', u', rfl, hbefore, hp, hf, hafter.1⟩, hafter.2.1⟩
  · rintro (hp | ⟨⟨before, f, after, t', u', rfl, hbefore, hp, hf, hafter⟩, hq⟩)
    · exact ⟨es, e, [], t, u, rfl, h, hp, he, trivial⟩
    · have hrest : run step u' after = some t := by
        rwa [run_append_of_run hbefore, run_cons_of_step hf] at h
      refine ⟨before, f, after ++ [e], t', u', by simp, hbefore, hp, hf, ?_⟩
      exact (along_append_of_run hrest).mpr ⟨hafter, hq, fun _ _ => trivial⟩

/-- What nothing ends holds once some step of the run satisfied P. -/
theorem since_never_iff {P : S → E → Prop} {s u : S} {es : List E} (h : run step s es = some u) :
    Since step P (fun _ _ => False) s es ↔
      ∃ before e after t, es = before ++ e :: after ∧ run step s before = some t ∧ P t e := by
  constructor
  · rintro ⟨before, e, after, t, -, heq, hbefore, hp, -, -⟩
    exact ⟨before, e, after, t, heq, hbefore, hp⟩
  · rintro ⟨before, e, after, t, rfl, hbefore, hp⟩
    rw [run_append_of_run hbefore, run_cons_eq_some] at h
    obtain ⟨u', hstep, -⟩ := h
    exact ⟨before, e, after, t, u', rfl, hbefore, hp, hstep,
      along_of_forall_mem (fun _ _ _ => id) u'⟩

/-- What P brings about, Q ends and nothing else changes holds after a run exactly if some
step satisfied P and no later one Q. -/
theorem run_since_iff_along {Inv Good : S → Prop} {P Q R : S → E → Prop}
    (hstep : ∀ s e t, Inv s → R s e → step s e = some t → Inv t)
    (hp : ∀ s e t, Inv s → R s e → step s e = some t → P s e → Good t)
    (hq : ∀ s e t, Inv s → R s e → step s e = some t → ¬ P s e → Q s e → ¬ Good t)
    (hkeep : ∀ s e t, Inv s → R s e → step s e = some t → ¬ P s e → ¬ Q s e →
      (Good t ↔ Good s))
    {s u : S} {es : List E} (hs : Inv s) (hgood : ¬ Good s) (ha : Along step R s es)
    (h : run step s es = some u) : Good u ↔ Since step P Q s es := by
  have hhistory : Inv u ∧ (Good u ↔ Since step P Q s es) := by
    induction es using List.reverseRecOn generalizing u with
    | nil =>
      obtain rfl : s = u := Option.some.inj h
      exact ⟨hs, iff_of_false hgood since_nil⟩
    | append_singleton es e ih =>
      obtain ⟨t, ht, hlast⟩ := run_concat_eq_some.mp h
      obtain ⟨hbefore, he, -⟩ := (along_append_of_run ht).mp ha
      obtain ⟨hinv, hiff⟩ := ih hbefore ht
      refine ⟨hstep t e u hinv he hlast, ?_⟩
      rw [since_concat ht hlast]
      by_cases hpt : P t e
      · exact iff_of_true (hp t e u hinv he hlast hpt) (Or.inl hpt)
      · by_cases hqt : Q t e
        · refine iff_of_false (hq t e u hinv he hlast hpt hqt) ?_
          rintro (hpt' | ⟨-, hqt'⟩)
          · exact hpt hpt'
          · exact hqt' hqt
        · rw [hkeep t e u hinv he hlast hpt hqt, hiff, or_iff_right hpt, and_iff_left hqt]
  exact hhistory.2

theorem run_since_iff {Inv Good : S → Prop} {P Q : S → E → Prop}
    (hstep : ∀ s e t, Inv s → step s e = some t → Inv t)
    (hp : ∀ s e t, Inv s → step s e = some t → P s e → Good t)
    (hq : ∀ s e t, Inv s → step s e = some t → ¬ P s e → Q s e → ¬ Good t)
    (hkeep : ∀ s e t, Inv s → step s e = some t → ¬ P s e → ¬ Q s e → (Good t ↔ Good s))
    {s u : S} {es : List E} (hs : Inv s) (hgood : ¬ Good s) (h : run step s es = some u) :
    Good u ↔ Since step P Q s es :=
  run_since_iff_along (R := fun _ _ => True) (fun s e t hi _ => hstep s e t hi)
    (fun s e t hi _ => hp s e t hi) (fun s e t hi _ => hq s e t hi)
    (fun s e t hi _ => hkeep s e t hi) hs hgood (along_of_forall_mem (fun _ _ _ => trivial) s) h

theorem reachable_invariant {Inv : S → Prop} {init s : S} (hinit : Inv init)
    (hstep : ∀ s e t, Inv s → step s e = some t → Inv t)
    (h : Reachable step init s) : Inv s := by
  obtain ⟨es, hes⟩ := h
  exact run_invariant hstep hinit hes

section Refinement

variable {A : Type*} {next : A → E → Option A} {R : S → A → Prop}

/-- Two step functions that accept the same events from related states, and stay related,
accept the same runs. -/
theorem run_rel (hstep : ∀ s a e, R s a → Option.Rel R (step s e) (next a e)) {s : S} {a : A}
    (h : R s a) (es : List E) : Option.Rel R (run step s es) (run next a es) := by
  induction es generalizing s a with
  | nil => exact .some h
  | cons e es ih =>
    rw [run_cons, run_cons]
    have hrel := hstep s a e h
    generalize step s e = x at hrel
    generalize next a e = y at hrel
    cases hrel with
    | some hrel => exact ih hrel
    | none => exact .none

theorem rel_ite {s : S} {a : A} {p q : Prop} [Decidable p] [Decidable q] (hpq : p ↔ q)
    (h : q → R s a) : Option.Rel R (if p then some s else none) (if q then some a else none) := by
  by_cases hq : q
  · rw [if_pos hq, if_pos (hpq.mpr hq)]
    exact .some (h hq)
  · rw [if_neg hq, if_neg fun hp => hq (hpq.mp hp)]
    exact .none

theorem rel_map_left {T : Type*} {f : T → S} {x : Option T} {y : Option A}
    (h : Option.Rel (fun t a => R (f t) a) x y) : Option.Rel R (x.map f) y := by
  cases h with
  | some h => exact .some h
  | none => exact .none

theorem exists_of_rel_some {x : Option S} {a : A} (h : Option.Rel R x (some a)) :
    ∃ s, x = some s ∧ R s a := by
  cases h with
  | some h => exact ⟨_, rfl, h⟩

end Refinement

/-- What is taken from its place and what goes on waiting is all that was waiting. -/
theorem cons_eraseIdx_perm {W : Type*} {waiting : List W} {i : ℕ} {w : W}
    (h : waiting[i]? = some w) : (w :: waiting.eraseIdx i).Perm waiting := by
  obtain ⟨hlt, rfl⟩ := List.getElem?_eq_some_iff.mp h
  exact List.getElem_cons_eraseIdx_perm hlt

end PartialRuns

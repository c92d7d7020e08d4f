import Mathlib.Data.List.Basic
import Mathlib.Data.List.Forall2

/-!
Rows brought up to date in one batch. Deletes and reloads name rows by their
places before the batch, inserts by their places after it. The rows that are
left keep their order and fill the places that no insert names; inserted and
reloaded rows are asked from the data source, by their places after the batch.
A batch that does not add up is refused.
-/
namespace BatchUpdates

variable {α : Type*}

structure Batch where
  deletes : List ℕ
  inserts : List ℕ
  reloads : List ℕ

/-- The elements of a list at the places, counted from base on, that are not given. -/
def without (places : List ℕ) (base : ℕ) : List α → List α
  | [] => []
  | a :: rows =>
    if base ∈ places then without places (base + 1) rows
    else a :: without places (base + 1) rows

/-- The rows that are left; none stands for one that has to be asked again. -/
def kept (b : Batch) (base : ℕ) : List α → List (Option α)
  | [] => []
  | a :: rows =>
    if base ∈ b.deletes then kept b (base + 1) rows
    else (if base ∈ b.reloads then none else some a) :: kept b (base + 1) rows

/-- The rows after the batch, one for each object of the data source. -/
def weave (inserts : List ℕ) (base : ℕ) : List α → List (Option α) → Option (List α)
  | [], [] => some []
  | [], _ :: _ => none
  | x :: objects, rows =>
    if base ∈ inserts then (weave inserts (base + 1) objects rows).map (x :: ·)
    else
      match rows with
      | [] => none
      | row :: rows => (weave inserts (base + 1) objects rows).map (row.getD x :: ·)

/-- Nothing is named twice, out of range, or both deleted and reloaded. -/
def Batch.Valid (b : Batch) (old new : ℕ) : Prop :=
  b.deletes.Nodup ∧ b.inserts.Nodup ∧ b.reloads.Nodup ∧ (∀ i ∈ b.deletes, i < old) ∧
    (∀ i ∈ b.inserts, i < new) ∧ ∀ i ∈ b.reloads, i < old ∧ i ∉ b.deletes

instance (b : Batch) (old new : ℕ) : Decidable (b.Valid old new) := by
  unfold Batch.Valid
  infer_instance

def Batch.perform (b : Batch) (rows objects : List α) : Option (List α) :=
  if b.Valid rows.length objects.length then weave b.inserts 0 objects (kept b 0 rows) else none

theorem without_eq_filter {places : List ℕ} {q : α → Bool} {base : ℕ} {rows : List α}
    (h : ∀ i a, rows[i]? = some a → (base + i ∉ places ↔ q a)) :
    without places base rows = rows.filter q := by
  induction rows generalizing base with
  | nil => rfl
  | cons a rows ih =>
    have hrest : without places (base + 1) rows = rows.filter q := by
      apply ih
      intro i x hx
      rw [Nat.add_right_comm, Nat.add_assoc]
      exact h (i + 1) x hx
    have hfirst : base ∉ places ↔ q a := h 0 a rfl
    by_cases hmem : base ∈ places
    · have hq : q a = false := by simpa [hmem] using hfirst
      rw [without, if_pos hmem, hrest, List.filter_cons_of_neg (by simp [hq])]
    · rw [without, if_neg hmem, hrest, List.filter_cons_of_pos (hfirst.mp hmem)]

theorem without_map {β : Type*} (f : α → β) (places : List ℕ) (base : ℕ) (rows : List α) :
    without places base (rows.map f) = (without places base rows).map f := by
  induction rows generalizing base with
  | nil => rfl
  | cons a rows ih =>
    rw [List.map_cons, without, without, ih]
    split <;> rfl

section Related

variable {β : Type*} {R : α → β → Prop}

/-- A row that has to be asked again fits any object. -/
def Fits (R : α → β → Prop) (row : Option α) (x : β) : Prop := ∀ a, row = some a → R a x

/-- What is left of the rows fits the objects left of those they stood for, when the rows
that are not asked again stood for theirs. -/
theorem kept_fits {b : Batch} {base : ℕ} {rows : List α} {objects : List β}
    (hlen : rows.length = objects.length)
    (h : ∀ i a x, rows[i]? = some a → objects[i]? = some x → base + i ∉ b.deletes →
      base + i ∉ b.reloads → R a x) :
    List.Forall₂ (Fits R) (kept b base rows) (without b.deletes base objects) := by
  induction rows generalizing base objects with
  | nil =>
    obtain rfl := List.length_eq_zero_iff.mp hlen.symm
    exact List.Forall₂.nil
  | cons a rows ih =>
    obtain ⟨x, objects, rfl⟩ := List.exists_cons_of_length_eq_add_one hlen.symm
    have hrest : List.Forall₂ (Fits R) (kept b (base + 1) rows)
        (without b.deletes (base + 1) objects) := by
      apply ih (Nat.succ.inj hlen)
      intro i
      rw [Nat.add_right_comm, Nat.add_assoc]
      exact h (i + 1)
    by_cases hdelete : base ∈ b.deletes
    · rw [kept, if_pos hdelete, without, if_pos hdelete]
      exact hrest
    · rw [kept, if_neg hdelete, without, if_neg hdelete]
      refine List.Forall₂.cons ?_ hrest
      intro r hr
      by_cases hreload : base ∈ b.reloads
      · rw [if_pos hreload] at hr
        cases hr
      · rw [if_neg hreload] at hr
        obtain rfl := Option.some.inj hr
        exact h 0 a x rfl rfl hdelete hreload

end Related

/-- Rows that fit the objects at the other places are woven into rows of the objects. -/
theorem weave_fits {R : α → α → Prop} (hrefl : ∀ x, R x x) {inserts : List ℕ} {base : ℕ}
    {objects : List α} {rows : List (Option α)}
    (h : List.Forall₂ (Fits R) rows (without inserts base objects)) :
    ∃ result, weave inserts base objects rows = some result ∧ List.Forall₂ R result objects := by
  induction objects generalizing base rows with
  | nil =>
    obtain rfl := List.forall₂_nil_right_iff.mp h
    exact ⟨[], rfl, List.Forall₂.nil⟩
  | cons x objects ih =>
    by_cases hinsert : base ∈ inserts
    · rw [without, if_pos hinsert] at h
      obtain ⟨result, hweave, hresult⟩ := ih h
      refine ⟨x :: result, ?_, hresult.cons (hrefl x)⟩
      unfold weave
      rw [if_pos hinsert, hweave, Option.map_some]
    · rw [without, if_neg hinsert] at h
      obtain ⟨row, rest, hrow, hrest, rfl⟩ := List.forall₂_cons_right_iff.mp h
      obtain ⟨result, hweave, hresult⟩ := ih hrest
      have hx : R (row.getD x) x := by
        cases row with
        | none => exact hrefl x
        | some a => exact hrow a rfl
      refine ⟨row.getD x :: result, ?_, hresult.cons hx⟩
      unfold weave
      simp only [if_neg hinsert, hweave, Option.map_some]

/-- Rows related to the old objects turn into rows related to the new ones: the batch need
only ask again for the rows that are not. -/
theorem perform_related {R : α → α → Prop} (hrefl : ∀ x, R x x) {b : Batch}
    {rows olds objects : List α} (hb : b.Valid rows.length objects.length)
    (hlen : rows.length = olds.length)
    (h : without b.deletes 0 olds = without b.inserts 0 objects)
    (hrows : ∀ i a x, rows[i]? = some a → olds[i]? = some x → i ∉ b.deletes →
      i ∉ b.reloads → R a x) :
    ∃ result, b.perform rows objects = some result ∧ List.Forall₂ R result objects := by
  rw [Batch.perform, if_pos hb]
  apply weave_fits hrefl
  rw [← h]
  apply kept_fits hlen
  simpa only [Nat.zero_add] using hrows

theorem mem_kept {b : Batch} {base i : ℕ} {rows : List α} {a : α} (ha : rows[i]? = some a)
    (hdelete : base + i ∉ b.deletes) (hreload : base + i ∉ b.reloads) :
    some a ∈ kept b base rows := by
  induction rows generalizing base i with
  | nil => cases ha
  | cons x rows ih =>
    cases i with
    | zero =>
      obtain rfl := Option.some.inj ha
      rw [Nat.add_zero] at hdelete hreload
      rw [kept, if_neg hdelete, if_neg hreload]
      exact List.mem_cons_self
    | succ i =>
      have hrest : some a ∈ kept b (base + 1) rows := by
        apply ih ha
        · rwa [Nat.add_right_comm, Nat.add_assoc]
        · rwa [Nat.add_right_comm, Nat.add_assoc]
      rw [kept]
      split
      · exact hrest
      · exact List.mem_cons_of_mem _ hrest

theorem mem_weave {inserts : List ℕ} {base : ℕ} {objects result : List α}
    {rows : List (Option α)} (h : weave inserts base objects rows = some result) {a : α}
    (ha : some a ∈ rows) : a ∈ result := by
  induction objects generalizing base rows result with
  | nil =>
    cases rows with
    | nil => cases ha
    | cons row rows => cases h
  | cons x objects ih =>
    unfold weave at h
    split at h
    · obtain ⟨rest, hrest, rfl⟩ := Option.map_eq_some_iff.mp h
      exact List.mem_cons_of_mem _ (ih hrest ha)
    · cases rows with
      | nil => cases ha
      | cons row rows =>
        obtain ⟨rest, hrest, rfl⟩ := Option.map_eq_some_iff.mp h
        rcases List.mem_cons.mp ha with rfl | ha
        · exact List.mem_cons_self
        · exact List.mem_cons_of_mem _ (ih hrest ha)

/-- A row that the batch neither deletes nor reloads is still there after it. -/
theorem mem_perform {b : Batch} {rows objects result : List α}
    (h : b.perform rows objects = some result) {i : ℕ} {a : α} (ha : rows[i]? = some a)
    (hdelete : i ∉ b.deletes) (hreload : i ∉ b.reloads) : a ∈ result := by
  obtain ⟨-, hweave⟩ := Option.ite_none_right_eq_some.mp h
  refine mem_weave hweave (mem_kept ha ?_ ?_)
  · rwa [Nat.zero_add]
  · rwa [Nat.zero_add]

/-- A valid batch is right when the objects at the places it leaves alone are the same
before and after, in the same order. -/
theorem perform_eq {b : Batch} {rows objects : List α} (hb : b.Valid rows.length objects.length)
    (h : without b.deletes 0 rows = without b.inserts 0 objects) :
    b.perform rows objects = some objects := by
  obtain ⟨result, hperform, hresult⟩ := perform_related (R := Eq) (fun _ => rfl) hb rfl h
    fun i a x ha hx _ _ => Option.some.inj (ha.symm.trans hx)
  rw [List.forall₂_eq_eq_eq] at hresult
  rw [hperform, hresult]

end BatchUpdates

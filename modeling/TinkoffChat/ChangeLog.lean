import Mathlib.Data.List.Induction
import Mathlib.Data.List.Nodup
import Mathlib.Logic.Function.Basic

/-!
Tables kept up to date by a log of keyed changes. A change carries the new
value of its key, or none when it removes the key. Replaying a log leaves at
each key the value of the last change that names it, so two logs that differ
only in the order of changes to different keys leave the same table.
-/
namespace ChangeLog

variable {K V D : Type*}

/-- At most one value for each key. -/
abbrev Table (K V : Type*) := K → Option V

structure Change (K V : Type*) where
  key : K
  value : Option V

def Change.put (key : K) (value : V) : Change K V := ⟨key, some value⟩

def Change.drop (key : K) : Change K V := ⟨key, none⟩

/-- The last document found satisfies the predicate and is one of the documents. -/
theorem findRev?_some {p : D → Bool} {docs : List D} {d : D} (h : docs.findRev? p = some d) :
    p d = true ∧ d ∈ docs := by
  rw [List.findRev?_eq_find?_reverse] at h
  exact ⟨List.find?_some h, List.mem_reverse.mp (List.mem_of_find?_eq_some h)⟩

/-- Under a weaker predicate the last document found is the same, or fails the
stronger one. -/
theorem findRev?_cases {p q : D → Bool} (hpq : ∀ d, p d = true → q d = true) (docs : List D) :
    docs.findRev? q = docs.findRev? p ∨ ∃ d, docs.findRev? q = some d ∧ p d = false := by
  induction docs using List.reverseRecOn with
  | nil => exact Or.inl rfl
  | append_singleton docs d ih =>
    simp only [List.findRev?_eq_find?_reverse] at ih ⊢
    cases hp : p d with
    | true => exact Or.inl (by simp [hp, hpq d hp])
    | false =>
      cases hq : q d with
      | true => exact Or.inr ⟨d, by simp [hq], hp⟩
      | false => simpa [hp, hq] using ih

variable [DecidableEq K]

def apply (t : Table K V) (c : Change K V) : Table K V := Function.update t c.key c.value

def replay (t : Table K V) (log : List (Change K V)) : Table K V := log.foldl apply t

/-- What the last change naming the key says about it. -/
def lastValue (key : K) (log : List (Change K V)) : Option (Option V) :=
  (log.findRev? fun c => c.key = key).map Change.value

@[simp] theorem replay_nil (t : Table K V) : replay t [] = t := rfl

@[simp] theorem replay_cons (t : Table K V) (c : Change K V) (log : List (Change K V)) :
    replay t (c :: log) = replay (apply t c) log := rfl

theorem replay_append (t : Table K V) (log log' : List (Change K V)) :
    replay t (log ++ log') = replay (replay t log) log' := List.foldl_append

theorem apply_self (t : Table K V) (c : Change K V) : apply t c c.key = c.value :=
  Function.update_self ..

theorem apply_of_ne (t : Table K V) (c : Change K V) {key : K} (h : c.key ≠ key) :
    apply t c key = t key := Function.update_of_ne (Ne.symm h) _ _

@[simp] theorem apply_put_self (t : Table K V) (key : K) (value : V) :
    apply t (.put key value) key = some value := apply_self t (.put key value)

@[simp] theorem apply_drop_self (t : Table K V) (key : K) : apply t (.drop key) key = none :=
  apply_self t (.drop key)

theorem apply_put_of_ne (t : Table K V) {key key' : K} (value : V) (h : key ≠ key') :
    apply t (.put key value) key' = t key' := apply_of_ne t (.put key value) h

theorem apply_drop_of_ne (t : Table K V) {key key' : K} (h : key ≠ key') :
    apply t (.drop key) key' = t key' := apply_of_ne t (.drop key) h

/-- Putting the value that is already there changes nothing. -/
theorem apply_put_eq_self_iff (t : Table K V) (key : K) (value : V) :
    apply t (.put key value) = t ↔ t key = some value := by
  constructor
  · intro h
    rw [← h]
    exact apply_put_self t key value
  · intro h
    funext key'
    by_cases hkey : key = key'
    · subst hkey
      rw [apply_put_self, h]
    · exact apply_put_of_ne t value hkey

/-- Dropping a key that has no value changes nothing. -/
theorem apply_drop_of_none (t : Table K V) {key : K} (h : t key = none) :
    apply t (.drop key) = t := by
  funext key'
  by_cases hkey : key = key'
  · subst hkey
    rw [apply_drop_self, h]
  · exact apply_drop_of_ne t hkey

theorem lastValue_append_singleton (key : K) (log : List (Change K V)) (c : Change K V) :
    lastValue key (log ++ [c]) = if c.key = key then some c.value else lastValue key log := by
  by_cases h : c.key = key
  · simp [lastValue, h]
  · simp [lastValue, h]

/-- The table after a replay, key by key. -/
theorem replay_apply (t : Table K V) (log : List (Change K V)) (key : K) :
    replay t log key = (lastValue key log).getD (t key) := by
  induction log using List.reverseRecOn with
  | nil => rfl
  | append_singleton log c ih =>
    rw [replay_append, lastValue_append_singleton]
    change apply (replay t log) c key = _
    by_cases h : c.key = key
    · subst h
      rw [apply_self, if_pos rfl, Option.getD_some]
    · rw [apply_of_ne _ _ h, if_neg h, ih]

/-- A key that no change names keeps its value. -/
theorem replay_of_not_mem (t : Table K V) (log : List (Change K V)) (key : K)
    (h : ∀ c ∈ log, c.key ≠ key) : replay t log key = t key := by
  rw [replay_apply]
  have hnone : log.findRev? (fun c => c.key = key) = none := by
    rw [List.findRev?_eq_find?_reverse, List.find?_eq_none]
    intro c hc
    simpa using h c (List.mem_reverse.mp hc)
  rw [lastValue, hnone, Option.map_none, Option.getD_none]

/-- Where all the changes naming a key agree, the replay leaves their value. -/
theorem replay_of_forall_value (t : Table K V) {log : List (Change K V)} {key : K}
    {value : Option V} (hvalue : ∀ c ∈ log, c.key = key → c.value = value)
    (hmem : ∃ c ∈ log, c.key = key) : replay t log key = value := by
  rw [replay_apply, lastValue]
  cases hlast : log.findRev? (fun c => c.key = key) with
  | none =>
    obtain ⟨c, hc, hkey⟩ := hmem
    rw [List.findRev?_eq_find?_reverse, List.find?_eq_none] at hlast
    exact absurd (decide_eq_true hkey) (hlast c (List.mem_reverse.mpr hc))
  | some c =>
    obtain ⟨hkey, hc⟩ := findRev?_some hlast
    exact hvalue c hc (of_decide_eq_true hkey)

theorem apply_comm (t : Table K V) (c d : Change K V) (h : c.key ≠ d.key) :
    apply (apply t c) d = apply (apply t d) c := Function.update_comm h _ _ _

/-- Changes to different keys may be replayed in any order. -/
theorem replay_perm {log log' : List (Change K V)} (hp : log.Perm log')
    (hn : (log.map Change.key).Nodup) (t : Table K V) : replay t log = replay t log' := by
  have hne : ∀ c ∈ log, ∀ d ∈ log, c = d ∨ c.key ≠ d.key := by
    intro c hc d hd
    by_cases hkey : c.key = d.key
    · exact Or.inl (List.inj_on_of_nodup_map hn hc hd hkey)
    · exact Or.inr hkey
  apply hp.foldl_eq'
  intro c hc d hd t'
  rcases hne c hc d hd with rfl | hkey
  · rfl
  · exact apply_comm t' c d hkey

section Handlers

variable {B : Type*} {Same : B → B → Prop} {handle : B → D → B}

theorem foldl_related (hcongr : ∀ s t d, Same s t → Same (handle s d) (handle t d))
    (docs : List D) {s t : B} (h : Same s t) :
    Same (docs.foldl handle s) (docs.foldl handle t) := by
  induction docs generalizing s t with
  | nil => exact h
  | cons d docs ih => exact ih (hcongr s t d h)

omit [DecidableEq K] in
/-- Documents whose handlers commute, up to a relation, when they are about different
keys may be handled in any order. -/
theorem foldl_perm (hsame : Equivalence Same) {keyOf : D → K}
    (hcongr : ∀ s t d, Same s t → Same (handle s d) (handle t d))
    (hcomm : ∀ s d e, keyOf d ≠ keyOf e →
      Same (handle (handle s d) e) (handle (handle s e) d))
    {docs docs' : List D} (hp : docs.Perm docs') (hn : (docs.map keyOf).Nodup) (s : B) :
    Same (docs.foldl handle s) (docs'.foldl handle s) := by
  induction hp generalizing s with
  | nil => exact hsame.refl s
  | cons d _ ih => exact ih (List.nodup_cons.mp hn).2 (handle s d)
  | swap d e docs =>
    have hne : keyOf e ≠ keyOf d := by
      intro heq
      exact (List.nodup_cons.mp hn).1 (heq ▸ List.mem_cons_self)
    exact foldl_related hcongr docs (hcomm s e d hne)
  | trans h₁ _ ih₁ ih₂ =>
    exact hsame.trans (ih₁ hn s) (ih₂ ((h₁.map keyOf).nodup_iff.mp hn) s)

end Handlers

/-- Reading changes off documents: the value left at a key is that of the last
document about this key that is read as a change. -/
theorem replay_filterMap (keyOf : D → K) (read : D → Option (Option V))
    (t : Table K V) (docs : List D) (key : K) :
    replay t (docs.filterMap fun d => (read d).map (Change.mk (keyOf d))) key =
      ((docs.findRev? fun d => keyOf d = key ∧ (read d).isSome).bind read).getD (t key) := by
  induction docs using List.reverseRecOn with
  | nil => rfl
  | append_singleton docs d ih =>
    rw [List.filterMap_append, replay_append]
    cases hread : read d with
    | none => simpa [hread] using ih
    | some v =>
      by_cases hkey : keyOf d = key
      · subst hkey
        simp [hread, apply]
      · have hstep : apply (replay t (docs.filterMap fun d => (read d).map (Change.mk (keyOf d))))
            ⟨keyOf d, v⟩ key = _ := apply_of_ne _ _ hkey
        simpa [hread, hkey] using hstep.trans ih

end ChangeLog

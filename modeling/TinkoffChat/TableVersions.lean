import TinkoffChat.ChangeLog
import Mathlib.Data.List.Dedup

/-!
A table with its earlier versions. The table is given by the log of its changes,
and its versions are numbered by how much of the log they have seen. Two versions
differ only at the keys touched in between, so a replica that stands at the
earlier one is brought up to date by the later values of those keys.
-/
namespace TableVersions

open ChangeLog

variable {K V : Type*} [DecidableEq K]

/-- The table after the first changes of the log. -/
def version (log : List (Change K V)) (n : ℕ) : Table K V := replay (fun _ => none) (log.take n)

/-- The table after all changes. -/
def current (log : List (Change K V)) : Table K V := replay (fun _ => none) log

/-- The keys that the changes between two versions name, each once. -/
def touched (log : List (Change K V)) (p q : ℕ) : List K :=
  (((log.take q).drop p).map Change.key).dedup

/-- The key had a value once and has none now. -/
def Gone (log : List (Change K V)) (key : K) : Prop :=
  key ∈ log.map Change.key ∧ current log key = none

variable {log : List (Change K V)} {p q : ℕ} {key : K}

@[simp] theorem version_length (log : List (Change K V)) :
    version log log.length = current log := by
  rw [version, List.take_length, current]

theorem version_append (h : p ≤ log.length) (later : List (Change K V)) :
    version (log ++ later) p = version log p := by
  rw [version, List.take_append_of_le_length h, version]

theorem current_append_singleton (log : List (Change K V)) (c : Change K V) :
    current (log ++ [c]) = apply (current log) c := by
  rw [current, replay_append]
  rfl

theorem touched_append (h : q ≤ log.length) (later : List (Change K V)) :
    touched (log ++ later) p q = touched log p q := by
  rw [touched, List.take_append_of_le_length h, touched]

theorem mem_touched : key ∈ touched log p q ↔ ∃ c ∈ (log.take q).drop p, c.key = key := by
  rw [touched, List.mem_dedup, List.mem_map]

theorem mem_log_of_touched (h : key ∈ touched log p q) : key ∈ log.map Change.key := by
  obtain ⟨c, hc, rfl⟩ := mem_touched.mp h
  exact List.mem_map_of_mem (List.mem_of_mem_take (List.mem_of_mem_drop hc))

/-- A key that nothing touched has the same value in both versions. -/
theorem version_of_not_touched (h : p ≤ q) (hkey : key ∉ touched log p q) :
    version log q key = version log p key := by
  have hsplit : log.take q = log.take p ++ (log.take q).drop p := by
    have htake : (log.take q).take p = log.take p := by
      rw [List.take_take, Nat.min_eq_left h]
    rw [← htake, List.take_append_drop]
  rw [version, hsplit, replay_append, version]
  apply replay_of_not_mem
  intro c hc heq
  exact hkey (mem_touched.mpr ⟨c, hc, heq⟩)

/-- A key with a value was named by a change. -/
theorem mem_log_of_version (h : version log p key ≠ none) : key ∈ log.map Change.key := by
  by_contra hkey
  apply h
  rw [version, replay_of_not_mem]
  intro c hc heq
  exact hkey (heq ▸ List.mem_map_of_mem (List.mem_of_mem_take hc))

theorem mem_log_of_current (h : current log key ≠ none) : key ∈ log.map Change.key :=
  mem_log_of_version (p := log.length) (by rwa [version_length])

/-- A value in a version was put there by a change of the log. -/
theorem exists_change_of_version {value : V} (h : version log p key = some value) :
    ∃ c ∈ log, c.key = key ∧ c.value = some value := by
  rw [version, replay_apply, lastValue] at h
  cases hlast : (log.take p).findRev? (fun c => c.key = key) with
  | none =>
    rw [hlast] at h
    cases h
  | some c =>
    obtain ⟨hkey, hc⟩ := findRev?_some hlast
    rw [hlast] at h
    exact ⟨c, List.mem_of_mem_take hc, of_decide_eq_true hkey, h⟩

/-- A key that is gone stays so until a change gives it a value again. -/
theorem Gone.append {c : Change K V} (h : Gone log key) (hc : c.key = key → c.value = none) :
    Gone (log ++ [c]) key := by
  obtain ⟨hmem, hnone⟩ := h
  refine ⟨by rw [List.map_append]; exact List.mem_append_left _ hmem, ?_⟩
  rw [current_append_singleton]
  by_cases hkey : c.key = key
  · rw [← hkey, apply_self, hc hkey]
  · rw [apply_of_ne _ _ hkey, hnone]

/-- Replaying changes that carry the values of a target leaves, at each key, the value
of the target, or the old one where no change names the key. -/
theorem replay_towards {t target : Table K V} {changes : List (Change K V)}
    (hvalue : ∀ c ∈ changes, c.value = target c.key) (key : K) :
    (replay t changes key = target key ∧ key ∈ changes.map Change.key) ∨
      (replay t changes key = t key ∧ key ∉ changes.map Change.key) := by
  by_cases hmem : key ∈ changes.map Change.key
  · obtain ⟨c, hc, hkey⟩ := List.mem_map.mp hmem
    refine Or.inl ⟨replay_of_forall_value t ?_ ⟨c, hc, hkey⟩, hmem⟩
    intro d hd hd'
    rw [hvalue d hd, hd']
  · refine Or.inr ⟨replay_of_not_mem t changes key ?_, hmem⟩
    intro c hc heq
    exact hmem (heq ▸ List.mem_map_of_mem hc)

end TableVersions

import TinkoffChat.ChangeLog
import TinkoffChat.PartialRuns
import Mathlib.Data.List.Dedup
import Mathlib.Data.List.Sort

/-!
The rows of a table in a list, sorted by a key that rows may share. Two lists of one
table have the same keys at the same places, and are one list where no key is shared.
-/
namespace SortedTables

open ChangeLog

variable {K V R : Type*} [LinearOrder R]

/-- The rows of the table, each once and by the key. -/
structure Listed (key : V → R) (t : Table K V) (rows : List (K × V)) : Prop where
  nodup : (rows.map Prod.fst).Nodup
  mem_iff : ∀ k value, (k, value) ∈ rows ↔ t k = some value
  sorted : rows.Pairwise fun a b => key a.2 ≤ key b.2

/-- The rows under the given keys of the table, sorted. -/
def listing [DecidableEq K] (key : V → R) (keys : List K) (t : Table K V) : List (K × V) :=
  (keys.dedup.filterMap fun k => (t k).map (k, ·)).mergeSort
    fun a b => decide (key a.2 ≤ key b.2)

variable {key : V → R} {t u : Table K V} {rows rows' : List (K × V)}

theorem rows_sublist (t : Table K V) (keys : List K) :
    ((keys.filterMap fun k => (t k).map (k, ·)).map Prod.fst).Sublist keys := by
  induction keys with
  | nil => exact List.Sublist.refl _
  | cons k keys ih =>
    cases hk : t k with
    | none => simpa [hk] using ih.cons k
    | some value => simpa [hk] using ih.cons_cons k

theorem listing_listed [DecidableEq K] {keys : List K} (h : ∀ k, t k ≠ none → k ∈ keys) :
    Listed key t (listing key keys t) where
  nodup := by
    have hperm := (List.mergeSort_perm (keys.dedup.filterMap fun k => (t k).map (k, ·))
      fun a b => decide (key a.2 ≤ key b.2)).map Prod.fst
    exact hperm.nodup_iff.mpr (keys.nodup_dedup.sublist (rows_sublist t _))
  mem_iff k value := by
    rw [listing, List.mem_mergeSort, List.mem_filterMap]
    constructor
    · rintro ⟨k', -, hvalue⟩
      obtain ⟨value', hvalue', heq⟩ := Option.map_eq_some_iff.mp hvalue
      obtain ⟨rfl, rfl⟩ := Prod.mk.inj heq
      exact hvalue'
    · intro hvalue
      have hmem : k ∈ keys := h k (by rw [hvalue]; exact Option.some_ne_none value)
      exact ⟨k, List.mem_dedup.mpr hmem, by rw [hvalue]; rfl⟩
  sorted := by
    have htrans (a b c : K × V) (hab : decide (key a.2 ≤ key b.2) = true)
        (hbc : decide (key b.2 ≤ key c.2) = true) : decide (key a.2 ≤ key c.2) = true :=
      decide_eq_true (le_trans (of_decide_eq_true hab) (of_decide_eq_true hbc))
    have htotal (a b : K × V) :
        (decide (key a.2 ≤ key b.2) || decide (key b.2 ≤ key a.2)) = true := by
      simpa using le_total (key a.2) (key b.2)
    have hsorted := List.pairwise_mergeSort htrans htotal
      (keys.dedup.filterMap fun k => (t k).map (k, ·))
    exact hsorted.imp of_decide_eq_true

theorem Listed.perm (h : Listed key t rows) (h' : Listed key t rows') : rows.Perm rows' := by
  rw [List.perm_ext_iff_of_nodup h.nodup.of_map h'.nodup.of_map]
  rintro ⟨k, value⟩
  rw [h.mem_iff, h'.mem_iff]

/-- Rows with the same key may change places, and nothing else may. -/
theorem Listed.keys_eq (h : Listed key t rows) (h' : Listed key t rows') :
    rows.map (fun row => key row.2) = rows'.map fun row => key row.2 :=
  ((h.perm h').map _).eq_of_pairwise' (List.pairwise_map.mpr h.sorted)
    (List.pairwise_map.mpr h'.sorted)

theorem Listed.eq_of_nodup (h : Listed key t rows) (h' : Listed key t rows')
    (hnodup : (rows.map fun row => key row.2).Nodup) : rows = rows' := by
  refine (h.perm h').eq_of_pairwise ?_ h.sorted h'.sorted
  intro a b ha hb hab hba
  exact List.inj_on_of_nodup_map hnodup ha ((h.perm h').mem_iff.mpr hb) (le_antisymm hab hba)

/-- The lists of a table are those of its rows that have the same keys at the same places. -/
theorem Listed.listed_iff (h : Listed key t rows) : Listed key t rows' ↔
    rows'.Perm rows ∧ rows'.map (fun row => key row.2) = rows.map fun row => key row.2 := by
  refine ⟨fun h' => ⟨h'.perm h, h'.keys_eq h⟩, fun ⟨hperm, hkeys⟩ => ⟨?_, ?_, ?_⟩⟩
  · exact (hperm.map Prod.fst).nodup_iff.mpr h.nodup
  · intro k value
    rw [hperm.mem_iff, h.mem_iff]
  · have hsorted : (rows.map fun row => key row.2).Pairwise (· ≤ ·) :=
      List.pairwise_map.mpr h.sorted
    rw [← hkeys, List.pairwise_map] at hsorted
    exact hsorted

/-- Without one of its rows the list is that of the table without the row. -/
theorem Listed.eraseIdx [DecidableEq K] (h : Listed key t rows) {index : ℕ} {row : K × V}
    (hrow : rows[index]? = some row) :
    Listed key (apply t (.drop row.1)) (rows.eraseIdx index) where
  nodup := h.nodup.sublist ((List.eraseIdx_sublist ..).map _)
  mem_iff k value := by
    have hperm : (row :: rows.eraseIdx index).Perm rows := PartialRuns.cons_eraseIdx_perm hrow
    have hfresh := (List.nodup_cons.mp ((hperm.map Prod.fst).nodup_iff.mpr h.nodup)).1
    by_cases hkey : row.1 = k
    · subst hkey
      rw [apply_drop_self]
      exact iff_of_false (fun hmem => hfresh (List.mem_map.mpr ⟨_, hmem, rfl⟩)) (nomatch ·)
    · rw [apply_drop_of_ne _ hkey, ← h.mem_iff, ← hperm.mem_iff, List.mem_cons]
      refine (or_iff_right ?_).symm
      rintro rfl
      exact hkey rfl
  sorted := h.sorted.sublist (List.eraseIdx_sublist ..)

theorem Listed.congr (h : Listed key t rows) (htable : ∀ k, t k = u k) : Listed key u rows := by
  obtain rfl : t = u := funext htable
  exact h

end SortedTables

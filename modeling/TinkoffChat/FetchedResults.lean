import TinkoffChat.BatchUpdates
import Mathlib.Data.List.Nodup

/-!
The fetched results delegates of the message list and of the channel list. Each
reported change is turned into operations on the table between beginUpdates and
endUpdates; an update also looks the object up at the old index, in a controller
that already has the new objects, and raises when there is none at that index.
-/
namespace TinkoffChat.FetchedResults

open BatchUpdates

variable {α : Type*}

inductive NSFetchedResultsChangeType
  | insert | delete | move | update

/-- What a delegate does to the table; `configure` acts on the visible cell of a row. -/
inductive TableOperation (α : Type*)
  | insertRows (row : ℕ)
  | deleteRows (row : ℕ)
  | reloadRows (row : ℕ)
  | configure (row : ℕ) (object : α)

/-- `controller(_:didChange:at:for:newIndexPath:)`, where the delegates differ in what they
do on an update; none when an exception is raised. -/
def didChange (update : ℕ → Option (List (TableOperation α))) (type : NSFetchedResultsChangeType)
    (indexPath newIndexPath : Option ℕ) : Option (List (TableOperation α)) :=
  match type with
  | .insert => some (newIndexPath.elim [] fun new => [.insertRows new])
  | .move => some (newIndexPath.elim [] fun new =>
      indexPath.elim [] fun old => [.deleteRows old, .insertRows new])
  | .update => indexPath.elim (some []) update
  | .delete => some (indexPath.elim [] fun old => [.deleteRows old])

/-- The cells that a row of the message list can have. -/
inductive MessageCell
  | my | notMy
  deriving DecidableEq

/-- The update of a message: `controller.object(at:)`, and then the visible cell of the row,
which must be of the class that the sender asks for. -/
def updateMessage (isMine : α → Bool) (objects : List α) (cellForRow : ℕ → Option MessageCell)
    (old : ℕ) : Option (List (TableOperation α)) :=
  objects[old]?.map fun message =>
    if cellForRow old = some (if isMine message then .my else .notMy) then
      [.configure old message, .reloadRows old]
    else []

/-- The update of a channel: the visible cell of the row comes first. -/
def updateChannel (objects : List α) (cellForRow : ℕ → Bool) (old : ℕ) :
    Option (List (TableOperation α)) :=
  if cellForRow old then
    objects[old]?.map fun channel => [.configure old channel, .reloadRows old]
  else some []

/-- A change as the controller reports it, with the index before it, after it, or both. -/
inductive Change
  | insert (new : ℕ)
  | delete (old : ℕ)
  | move (old new : ℕ)
  | update (old : ℕ)
  deriving DecidableEq

def Change.report (update : ℕ → Option (List (TableOperation α))) :
    Change → Option (List (TableOperation α))
  | .insert new => didChange update .insert none (some new)
  | .delete old => didChange update .delete (some old) none
  | .move old new => didChange update .move (some old) (some new)
  | .update old => didChange update .update (some old) none

/-- What the delegate does on the changes in the order of their reports. -/
def issued (update : ℕ → Option (List (TableOperation α))) :
    List Change → Option (List (TableOperation α))
  | [] => some []
  | c :: changes => (c.report update).bind fun first =>
      (issued update changes).map fun rest => first ++ rest

def TableOperation.deleted : TableOperation α → Option ℕ
  | .deleteRows row => some row
  | _ => none

def TableOperation.inserted : TableOperation α → Option ℕ
  | .insertRows row => some row
  | _ => none

def TableOperation.reloaded : TableOperation α → Option ℕ
  | .reloadRows row => some row
  | _ => none

/-- The batch that endUpdates performs. -/
def batch (operations : List (TableOperation α)) : Batch where
  deletes := operations.filterMap TableOperation.deleted
  inserts := operations.filterMap TableOperation.inserted
  reloads := operations.filterMap TableOperation.reloaded

/-- The delegate raises nothing, and its batch turns rows of the old objects into rows of
the new ones, as reloading the whole table would. -/
def ShowsNew (update : ℕ → Option (List (TableOperation α))) (old new : List α)
    (changes : List Change) : Prop :=
  ∃ operations, issued update changes = some operations ∧
    (batch operations).perform old new = some new

variable [DecidableEq α]

/-- The object that stood at a place is reported as moved. -/
def moved (old : List α) (changes : List Change) (a : α) : Bool :=
  changes.any fun c => match c with
    | .move i _ => old[i]? = some a
    | _ => false

/-- The changes that take the old objects to the new ones, each reported once: all that
came and went, some of those that stayed as moved or updated, and the others in order. -/
structure Reports (old new : List α) (changes : List Change) : Prop where
  old_nodup : old.Nodup
  new_nodup : new.Nodup
  changes_nodup : changes.Nodup
  inserts : ∀ i, .insert i ∈ changes ↔ ∃ a, new[i]? = some a ∧ a ∉ old
  deletes : ∀ i, .delete i ∈ changes ↔ ∃ a, old[i]? = some a ∧ a ∉ new
  moves : ∀ i j, .move i j ∈ changes → ∃ a, old[i]? = some a ∧ new[j]? = some a
  updates : ∀ i, .update i ∈ changes →
    ∃ a, old[i]? = some a ∧ a ∈ new ∧ moved old changes a = false
  order : (old.filter fun a => a ∈ new ∧ ¬ moved old changes a) =
    new.filter fun a => a ∈ old ∧ ¬ moved old changes a

/-- On an update only the row of the update is touched, and it is only reloaded. -/
def OnlyReloads (update : ℕ → Option (List (TableOperation α))) : Prop :=
  ∀ i operations, update i = some operations →
    batch operations = ⟨[], [], []⟩ ∨ batch operations = ⟨[], [], [i]⟩

def Change.old? : Change → Option ℕ
  | .delete old => some old
  | .move old _ => some old
  | _ => none

def Change.new? : Change → Option ℕ
  | .insert new => some new
  | .move _ new => some new
  | _ => none

def Change.updated? : Change → Option ℕ
  | .update old => some old
  | _ => none

theorem moved_iff {old : List α} {changes : List Change} {a : α} :
    moved old changes a = true ↔ ∃ i j, .move i j ∈ changes ∧ old[i]? = some a := by
  rw [moved, List.any_eq_true]
  constructor
  · rintro ⟨c, hc, hmoved⟩
    cases c with
    | move i j => exact ⟨i, j, hc, of_decide_eq_true hmoved⟩
    | insert i => cases hmoved
    | delete i => cases hmoved
    | update i => cases hmoved
  · rintro ⟨i, j, hmem, ha⟩
    exact ⟨_, hmem, decide_eq_true ha⟩

omit [DecidableEq α] in
theorem batch_append (first rest : List (TableOperation α)) :
    batch (first ++ rest) = ⟨(batch first).deletes ++ (batch rest).deletes,
      (batch first).inserts ++ (batch rest).inserts,
      (batch first).reloads ++ (batch rest).reloads⟩ := by
  simp only [batch, List.filterMap_append]

omit [DecidableEq α] in
/-- The batch of a list of changes, unless an update raises. -/
theorem batch_issued {update : ℕ → Option (List (TableOperation α))}
    (hupdate : OnlyReloads update) {changes : List Change} {operations : List (TableOperation α)}
    (h : issued update changes = some operations) :
    (batch operations).deletes = changes.filterMap Change.old? ∧
      (batch operations).inserts = changes.filterMap Change.new? ∧
      (batch operations).reloads.Sublist (changes.filterMap Change.updated?) := by
  induction changes generalizing operations with
  | nil =>
    obtain rfl := Option.some.inj h
    exact ⟨rfl, rfl, List.Sublist.refl _⟩
  | cons c changes ih =>
    obtain ⟨first, hfirst, hmap⟩ := Option.bind_eq_some_iff.mp h
    obtain ⟨rest, hrest, rfl⟩ := Option.map_eq_some_iff.mp hmap
    obtain ⟨hdeletes, hinserts, hreloads⟩ := ih hrest
    rw [batch_append]
    cases c with
    | insert new =>
      obtain rfl := Option.some.inj hfirst
      exact ⟨hdeletes, congrArg (new :: ·) hinserts, hreloads⟩
    | delete old =>
      obtain rfl := Option.some.inj hfirst
      exact ⟨congrArg (old :: ·) hdeletes, hinserts, hreloads⟩
    | move old new =>
      obtain rfl := Option.some.inj hfirst
      exact ⟨congrArg (old :: ·) hdeletes, congrArg (new :: ·) hinserts, hreloads⟩
    | update old =>
      rcases hupdate old first hfirst with heq | heq
      · rw [heq]
        exact ⟨hdeletes, hinserts, hreloads.cons old⟩
      · rw [heq]
        exact ⟨hdeletes, hinserts, hreloads.cons_cons old⟩

omit [DecidableEq α] in
theorem issued_isSome_iff {update : ℕ → Option (List (TableOperation α))}
    {changes : List Change} : (issued update changes).isSome ↔
      ∀ i, .update i ∈ changes → (update i).isSome := by
  induction changes with
  | nil => simp [issued]
  | cons c changes ih =>
    cases c with
    | update old => cases h : update old <;> simp [issued, Change.report, didChange, ih, h]
    | insert new => simp [issued, Change.report, didChange, ih]
    | delete old => simp [issued, Change.report, didChange, ih]
    | move old new => simp [issued, Change.report, didChange, ih]

section Reports

variable {old new : List α} {changes : List Change}

omit [DecidableEq α] in
theorem place_unique {l : List α} (hl : l.Nodup) {i j : ℕ} {a : α} (hi : l[i]? = some a)
    (hj : l[j]? = some a) : i = j := by
  obtain ⟨hlt, -⟩ := List.getElem?_eq_some_iff.mp hi
  exact (List.getElem?_inj hlt hl).mp (hi.trans hj.symm)

/-- What deletes a row reports that its object went away, or moved. -/
theorem of_old (hr : Reports old new changes) {c : Change} (hc : c ∈ changes) {i : ℕ}
    (hi : c.old? = some i) : ∃ a, old[i]? = some a ∧
      ((a ∉ new ∧ c = .delete i) ∨ ∃ j, new[j]? = some a ∧ c = .move i j) := by
  cases c with
  | insert j => cases hi
  | update j => cases hi
  | delete j =>
    obtain rfl := Option.some.inj hi
    obtain ⟨a, ha, hgone⟩ := (hr.deletes j).mp hc
    exact ⟨a, ha, Or.inl ⟨hgone, rfl⟩⟩
  | move j k =>
    obtain rfl := Option.some.inj hi
    obtain ⟨a, ha, hnew⟩ := hr.moves j k hc
    exact ⟨a, ha, Or.inr ⟨k, hnew, rfl⟩⟩

/-- What inserts a row reports that its object is new, or moved. -/
theorem of_new (hr : Reports old new changes) {c : Change} (hc : c ∈ changes) {i : ℕ}
    (hi : c.new? = some i) : ∃ a, new[i]? = some a ∧
      ((a ∉ old ∧ c = .insert i) ∨ ∃ j, old[j]? = some a ∧ c = .move j i) := by
  cases c with
  | delete j => cases hi
  | update j => cases hi
  | insert j =>
    obtain rfl := Option.some.inj hi
    obtain ⟨a, ha, hfresh⟩ := (hr.inserts j).mp hc
    exact ⟨a, ha, Or.inl ⟨hfresh, rfl⟩⟩
  | move j k =>
    obtain rfl := Option.some.inj hi
    obtain ⟨a, hold, ha⟩ := hr.moves j k hc
    exact ⟨a, ha, Or.inr ⟨j, hold, rfl⟩⟩

theorem mem_old_iff (hr : Reports old new changes) {i : ℕ} {a : α} (ha : old[i]? = some a) :
    i ∈ changes.filterMap Change.old? ↔ a ∉ new ∨ moved old changes a = true := by
  rw [List.mem_filterMap]
  constructor
  · rintro ⟨c, hc, hi⟩
    obtain ⟨b, hb, ⟨hgone, -⟩ | ⟨j, -, rfl⟩⟩ := of_old hr hc hi
    · exact Or.inl (Option.some.inj (ha.symm.trans hb) ▸ hgone)
    · exact Or.inr (moved_iff.mpr ⟨i, j, hc, ha⟩)
  · rintro (hgone | hmoved)
    · exact ⟨.delete i, (hr.deletes i).mpr ⟨a, ha, hgone⟩, rfl⟩
    · obtain ⟨j, k, hc, hj⟩ := moved_iff.mp hmoved
      exact ⟨.move j k, hc, congrArg some (place_unique hr.old_nodup hj ha)⟩

theorem mem_new_iff (hr : Reports old new changes) {i : ℕ} {a : α} (ha : new[i]? = some a) :
    i ∈ changes.filterMap Change.new? ↔ a ∉ old ∨ moved old changes a = true := by
  rw [List.mem_filterMap]
  constructor
  · rintro ⟨c, hc, hi⟩
    obtain ⟨b, hb, ⟨hfresh, -⟩ | ⟨j, hold, rfl⟩⟩ := of_new hr hc hi
    · exact Or.inl (Option.some.inj (ha.symm.trans hb) ▸ hfresh)
    · obtain rfl := Option.some.inj (ha.symm.trans hb)
      exact Or.inr (moved_iff.mpr ⟨j, i, hc, hold⟩)
  · rintro (hfresh | hmoved)
    · exact ⟨.insert i, (hr.inserts i).mpr ⟨a, ha, hfresh⟩, rfl⟩
    · obtain ⟨j, k, hc, hj⟩ := moved_iff.mp hmoved
      obtain ⟨b, hold, hnew⟩ := hr.moves j k hc
      obtain rfl := Option.some.inj (hj.symm.trans hold)
      exact ⟨.move j k, hc, congrArg some (place_unique hr.new_nodup hnew ha)⟩

/-- The objects that keep their rows are the same before and after. -/
theorem without_eq (hr : Reports old new changes) :
    without (changes.filterMap Change.old?) 0 old =
      without (changes.filterMap Change.new?) 0 new := by
  have hold : without (changes.filterMap Change.old?) 0 old =
      old.filter fun a => a ∈ new ∧ ¬ moved old changes a := by
    apply without_eq_filter
    intro i a ha
    rw [Nat.zero_add, mem_old_iff hr ha]
    simp
  have hnew : without (changes.filterMap Change.new?) 0 new =
      new.filter fun a => a ∈ old ∧ ¬ moved old changes a := by
    apply without_eq_filter
    intro i a ha
    rw [Nat.zero_add, mem_new_iff hr ha]
    simp
  rw [hold, hnew, hr.order]

/-- The places that reported changes name are different when different changes of the list
never name the same one. -/
theorem filterMap_nodup {f : Change → Option ℕ} (hchanges : changes.Nodup)
    (h : ∀ c ∈ changes, ∀ d ∈ changes, ∀ i, f c = some i → f d = some i → c = d) :
    (changes.filterMap f).Nodup := by
  rw [List.Nodup, List.pairwise_filterMap]
  apply hchanges.imp_of_mem
  rintro c d hc hd hne i hi j hj rfl
  exact hne (h c hc d hd i hi hj)

theorem deletes_nodup (hr : Reports old new changes) :
    (changes.filterMap Change.old?).Nodup := by
  apply filterMap_nodup hr.changes_nodup
  intro c hc d hd i hi hi'
  obtain ⟨a, ha, hc⟩ := of_old hr hc hi
  obtain ⟨b, hb, hd⟩ := of_old hr hd hi'
  obtain rfl := Option.some.inj (ha.symm.trans hb)
  rcases hc with ⟨hgone, rfl⟩ | ⟨j, hj, rfl⟩ <;> rcases hd with ⟨hgone', rfl⟩ | ⟨k, hk, rfl⟩
  · rfl
  · exact absurd (List.mem_of_getElem? hk) hgone
  · exact absurd (List.mem_of_getElem? hj) hgone'
  · rw [place_unique hr.new_nodup hj hk]

theorem inserts_nodup (hr : Reports old new changes) :
    (changes.filterMap Change.new?).Nodup := by
  apply filterMap_nodup hr.changes_nodup
  intro c hc d hd i hi hi'
  obtain ⟨a, ha, hc⟩ := of_new hr hc hi
  obtain ⟨b, hb, hd⟩ := of_new hr hd hi'
  obtain rfl := Option.some.inj (ha.symm.trans hb)
  rcases hc with ⟨hfresh, rfl⟩ | ⟨j, hj, rfl⟩ <;> rcases hd with ⟨hfresh', rfl⟩ | ⟨k, hk, rfl⟩
  · rfl
  · exact absurd (List.mem_of_getElem? hk) hfresh
  · exact absurd (List.mem_of_getElem? hj) hfresh'
  · rw [place_unique hr.old_nodup hj hk]

theorem updates_nodup (hr : Reports old new changes) :
    (changes.filterMap Change.updated?).Nodup := by
  apply filterMap_nodup hr.changes_nodup
  intro c _ d _ i hi hi'
  cases c <;> cases hi
  cases d <;> cases hi'
  rfl

/-- Whatever the delegate issues is a batch that the table accepts. -/
theorem batch_valid (hr : Reports old new changes) {b : Batch}
    (hdeletes : b.deletes = changes.filterMap Change.old?)
    (hinserts : b.inserts = changes.filterMap Change.new?)
    (hreloads : b.reloads.Sublist (changes.filterMap Change.updated?)) :
    b.Valid old.length new.length := by
  refine ⟨hdeletes ▸ deletes_nodup hr, hinserts ▸ inserts_nodup hr,
    (updates_nodup hr).sublist hreloads, ?_, ?_, ?_⟩
  · intro i hi
    rw [hdeletes] at hi
    obtain ⟨c, hc, hi⟩ := List.mem_filterMap.mp hi
    obtain ⟨a, ha, -⟩ := of_old hr hc hi
    exact (List.getElem?_eq_some_iff.mp ha).1
  · intro i hi
    rw [hinserts] at hi
    obtain ⟨c, hc, hi⟩ := List.mem_filterMap.mp hi
    obtain ⟨a, ha, -⟩ := of_new hr hc hi
    exact (List.getElem?_eq_some_iff.mp ha).1
  · intro i hi
    obtain ⟨c, hc, hupdated⟩ := List.mem_filterMap.mp (hreloads.subset hi)
    cases c <;> cases hupdated
    obtain ⟨a, ha, hstays, hunmoved⟩ := hr.updates i hc
    refine ⟨(List.getElem?_eq_some_iff.mp ha).1, ?_⟩
    rw [hdeletes, mem_old_iff hr ha, hunmoved]
    simpa using hstays

/-- The batch is right whenever no update raises. -/
theorem showsNew_iff_isSome (hr : Reports old new changes)
    {update : ℕ → Option (List (TableOperation α))} (hupdate : OnlyReloads update) :
    ShowsNew update old new changes ↔ ∀ i, .update i ∈ changes → (update i).isSome := by
  rw [← issued_isSome_iff]
  constructor
  · rintro ⟨operations, hissued, -⟩
    rw [hissued]
    rfl
  · intro hsome
    obtain ⟨operations, hissued⟩ := Option.isSome_iff_exists.mp hsome
    obtain ⟨hdeletes, hinserts, hreloads⟩ := batch_issued hupdate hissued
    refine ⟨operations, hissued, perform_eq (batch_valid hr hdeletes hinserts hreloads) ?_⟩
    rw [hdeletes, hinserts]
    exact without_eq hr

end Reports

omit [DecidableEq α] in
theorem updateMessage_onlyReloads (isMine : α → Bool) (objects : List α)
    (cellForRow : ℕ → Option MessageCell) :
    OnlyReloads (updateMessage isMine objects cellForRow) := by
  intro i operations h
  obtain ⟨message, -, rfl⟩ := Option.map_eq_some_iff.mp h
  by_cases hcell : cellForRow i = some (if isMine message then .my else .notMy)
  · rw [if_pos hcell]
    exact Or.inr rfl
  · rw [if_neg hcell]
    exact Or.inl rfl

omit [DecidableEq α] in
theorem updateChannel_onlyReloads (objects : List α) (cellForRow : ℕ → Bool) :
    OnlyReloads (updateChannel objects cellForRow) := by
  intro i operations h
  unfold updateChannel at h
  split at h
  · obtain ⟨channel, -, rfl⟩ := Option.map_eq_some_iff.mp h
    exact Or.inr rfl
  · obtain rfl := Option.some.inj h
    exact Or.inl rfl

/-- The rows of both lists come out right exactly when no update's old index, in the
channel list one of a visible row, lies beyond the new objects. -/
theorem showsNew_iff {old new : List α} {changes : List Change}
    (hr : Reports old new changes) (isMine : α → Bool) (messageCell : ℕ → Option MessageCell)
    (channelCell : ℕ → Bool) :
    (ShowsNew (updateMessage isMine new messageCell) old new changes ↔
      ∀ i, .update i ∈ changes → i < new.length) ∧
    (ShowsNew (updateChannel new channelCell) old new changes ↔
      ∀ i, .update i ∈ changes → channelCell i → i < new.length) := by
  rw [showsNew_iff_isSome hr (updateMessage_onlyReloads isMine new messageCell),
    showsNew_iff_isSome hr (updateChannel_onlyReloads new channelCell)]
  have hmessage (i : ℕ) : (updateMessage isMine new messageCell i).isSome ↔ i < new.length := by
    simp [updateMessage]
  have hchannel (i : ℕ) : (updateChannel new channelCell i).isSome ↔
      (channelCell i → i < new.length) := by
    unfold updateChannel
    split
    · rename_i hvisible
      simp [hvisible]
    · rename_i hhidden
      exact iff_of_true rfl fun h => absurd h hhidden
  simp only [hmessage, hchannel, and_self]

/-- One object replaced, one moved and one updated. -/
def mixedChanges : List Change := [.update 1, .insert 0, .move 2 1, .delete 0]

theorem mixedChanges_reports : Reports ["a", "b", "c"] ["d", "c", "b"] mixedChanges where
  old_nodup := by decide
  new_nodup := by decide
  changes_nodup := by decide
  inserts := by
    intro i
    rcases i with _ | _ | _ | i <;> simp [mixedChanges]
  deletes := by
    intro i
    rcases i with _ | _ | _ | i <;> simp [mixedChanges]
  moves := by
    intro i j h
    obtain ⟨rfl, rfl⟩ : i = 2 ∧ j = 1 := by simpa [mixedChanges] using h
    exact ⟨"c", rfl, rfl⟩
  updates := by
    intro i h
    obtain rfl : i = 1 := by simpa [mixedChanges] using h
    exact ⟨"b", rfl, by decide, by decide⟩
  order := by decide

theorem showsNew_mixedChanges :
    ShowsNew (updateMessage (fun _ => true) ["d", "c", "b"] fun _ => some .my)
      ["a", "b", "c"] ["d", "c", "b"] mixedChanges := by
  apply (showsNew_iff mixedChanges_reports (fun _ => true) (fun _ => some .my)
    fun _ => true).1.mpr
  intro i h
  obtain rfl : i = 1 := by simpa [mixedChanges] using h
  decide

/-- The row above a message goes away while the message itself is updated. -/
def lastUpdated : List Change := [.delete 0, .update 1]

theorem lastUpdated_reports : Reports ["a", "b"] ["b"] lastUpdated where
  old_nodup := by decide
  new_nodup := by decide
  changes_nodup := by decide
  inserts := by
    intro i
    rcases i with _ | i <;> simp [lastUpdated]
  deletes := by
    intro i
    rcases i with _ | _ | i <;> simp [lastUpdated]
  moves := by
    intro i j h
    simp [lastUpdated] at h
  updates := by
    intro i h
    obtain rfl : i = 1 := by simpa [lastUpdated] using h
    exact ⟨"b", rfl, by decide, by decide⟩
  order := by decide

/-- The delegate asks for the second of one object. -/
theorem not_showsNew : ¬ ∀ (old new : List String) (changes : List Change),
    Reports old new changes → ∀ (isMine : String → Bool) (messageCell : ℕ → Option MessageCell),
      ShowsNew (updateMessage isMine new messageCell) old new changes := by
  intro h
  obtain ⟨operations, hissued, -⟩ :=
    h _ _ _ lastUpdated_reports (fun _ => true) fun _ => some .my
  exact absurd hissued (by simp [lastUpdated, issued, Change.report, didChange, updateMessage])

end TinkoffChat.FetchedResults

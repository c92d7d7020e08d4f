import TinkoffChat.FetchedResults

/-!
The rows of objects that a batch reports as updated. A visible row shows what
its cell was configured with. The update names the row by the index before the
batch and asks the controller for the object at that index after it, so it
refreshes the row exactly when both lists have the same object there and, in the
message list, when the row's cell is of the class that object asks for.
-/
namespace TinkoffChat.UpdatedRows

open BatchUpdates FetchedResults

variable {α β : Type*}

/-- A row of the table; it shows nothing while it has no cell on the screen. -/
structure Row (α β : Type*) where
  object : α
  shown : Option β

/-- A cell configured with the object as it is now. -/
def cellForRowAt (content : α → β) (object : α) : Row α β := ⟨object, some (content object)⟩

/-- The rows before the batch: only those that a change names may show outdated content. -/
structure ShownBefore (content : α → β) (visible : ℕ → Prop) (old : List α)
    (changes : List Change) (rows : List (Row α β)) : Prop where
  objects : rows.map Row.object = old
  cells : ∀ i row, rows[i]? = some row → (row.shown.isSome ↔ visible i)
  current : ∀ i row c, rows[i]? = some row → row.shown = some c →
    c = content row.object ∨ ∃ change ∈ changes, change.old? = some i ∨ change.updated? = some i

/-- The rows after it: one for each of the new objects, none with outdated content. -/
def ShownAfter (content : α → β) (new : List α) (rows : List (Row α β)) : Prop :=
  rows.map Row.object = new ∧ ∀ row ∈ rows, ∀ c, row.shown = some c → c = content row.object

/-- Every update that asks for an object gets the one that was updated, every visible row
of an update is reloaded, and no row shows outdated content in the end. -/
structure Refreshes (update : ℕ → Option (List (TableOperation α))) (asks visible : ℕ → Prop)
    (content : α → β) (old new : List α) (changes : List Change) : Prop where
  inside : ∀ i, .update i ∈ changes → asks i → i < new.length
  obtained : ∀ i, .update i ∈ changes → asks i → new[i]? = old[i]?
  reloads : ∀ i, .update i ∈ changes → visible i →
    ∃ operations, update i = some operations ∧ .reloadRows i ∈ operations
  shows : ∀ rows, ShownBefore content visible old changes rows →
    ∃ operations result, issued update changes = some operations ∧
      (batch operations).perform rows (new.map (cellForRowAt content)) = some result ∧
      ShownAfter content new result

/-- The message list asks for the object of every update. -/
def MessageRefreshes (isMine : α → Bool) (messageCell : ℕ → Option MessageCell)
    (content : α → β) (old new : List α) (changes : List Change) : Prop :=
  Refreshes (updateMessage isMine new messageCell) (fun _ => True)
    (fun i => (messageCell i).isSome) content old new changes

/-- The channel list asks for the object of an update whose row is visible. -/
def ChannelRefreshes (channelCell : ℕ → Bool) (content : α → β) (old new : List α)
    (changes : List Change) : Prop :=
  Refreshes (updateChannel new channelCell) (fun i => channelCell i) (fun i => channelCell i)
    content old new changes

theorem mem_issued {update : ℕ → Option (List (TableOperation α))} {changes : List Change}
    {all operations : List (TableOperation α)} (h : issued update changes = some all) {i : ℕ}
    (hi : .update i ∈ changes) (hupdate : update i = some operations)
    {operation : TableOperation α} (hmem : operation ∈ operations) : operation ∈ all := by
  induction changes generalizing all with
  | nil => cases hi
  | cons c changes ih =>
    obtain ⟨first, hfirst, hmap⟩ := Option.bind_eq_some_iff.mp h
    obtain ⟨rest, hrest, rfl⟩ := Option.map_eq_some_iff.mp hmap
    rw [List.mem_append]
    rcases List.mem_cons.mp hi with rfl | hi
    · obtain rfl : operations = first := Option.some.inj (hupdate.symm.trans hfirst)
      exact Or.inl hmem
    · exact Or.inr (ih hrest hi)

theorem mem_reloads {operations : List (TableOperation α)} {i : ℕ}
    (h : .reloadRows i ∈ operations) : i ∈ (batch operations).reloads :=
  List.mem_filterMap.mpr ⟨.reloadRows i, h, rfl⟩

/-- A row may stay when it stands for the same object and shows nothing else. -/
def MayStay (row fresh : Row α β) : Prop :=
  row.object = fresh.object ∧ ∀ c, row.shown = some c → fresh.shown = some c

theorem mayStay_refl (row : Row α β) : MayStay row row := ⟨rfl, fun _ h => h⟩

theorem shownAfter_of_forall₂ {content : α → β} {new : List α} {rows : List (Row α β)}
    (h : List.Forall₂ MayStay rows (new.map (cellForRowAt content))) :
    ShownAfter content new rows := by
  induction new generalizing rows with
  | nil =>
    obtain rfl := List.forall₂_nil_right_iff.mp h
    exact ⟨rfl, fun row hrow => absurd hrow List.not_mem_nil⟩
  | cons a new ih =>
    obtain ⟨row, rest, hrow, hrest, rfl⟩ := List.forall₂_cons_right_iff.mp h
    obtain ⟨hobjects, hcurrent⟩ := ih hrest
    obtain ⟨hobject, hshown⟩ := hrow
    refine ⟨congrArg₂ List.cons hobject hobjects, ?_⟩
    intro r hr c hc
    rcases List.mem_cons.mp hr with rfl | hr
    · rw [hobject]
      exact (Option.some.inj (hshown c hc)).symm
    · exact hcurrent r hr c hc

section Reports

variable [DecidableEq α] {old new : List α} {changes : List Change}

/-- The batch leaves no row outdated when each visible row of an update is reloaded. -/
theorem shownAfter_of_reloads (hr : Reports old new changes)
    {update : ℕ → Option (List (TableOperation α))} (hupdate : OnlyReloads update)
    (hsome : ∀ i, .update i ∈ changes → (update i).isSome) {visible : ℕ → Prop}
    (hreloads : ∀ i, .update i ∈ changes → visible i →
      ∃ operations, update i = some operations ∧ .reloadRows i ∈ operations)
    {content : α → β} {rows : List (Row α β)}
    (hrows : ShownBefore content visible old changes rows) :
    ∃ operations result, issued update changes = some operations ∧
      (batch operations).perform rows (new.map (cellForRowAt content)) = some result ∧
      ShownAfter content new result := by
  obtain ⟨all, hissued⟩ := Option.isSome_iff_exists.mp (issued_isSome_iff.mpr hsome)
  obtain ⟨hdeletes, hinserts, hsublist⟩ := batch_issued hupdate hissued
  have hlen : rows.length = old.length := by rw [← hrows.objects, List.length_map]
  have hvalid : (batch all).Valid rows.length (new.map (cellForRowAt content)).length := by
    rw [hlen, List.length_map]
    exact batch_valid hr hdeletes hinserts hsublist
  have hkept : without (batch all).deletes 0 (old.map (cellForRowAt content)) =
      without (batch all).inserts 0 (new.map (cellForRowAt content)) := by
    rw [without_map, without_map, hdeletes, hinserts, without_eq hr]
  have hstay : ∀ i row fresh, rows[i]? = some row →
      (old.map (cellForRowAt content))[i]? = some fresh → i ∉ (batch all).deletes →
      i ∉ (batch all).reloads → MayStay row fresh := by
    intro i row fresh hrow hfresh hdeleted hreloaded
    rw [← hrows.objects, List.map_map, List.getElem?_map, hrow] at hfresh
    obtain rfl := Option.some.inj hfresh
    refine ⟨rfl, fun c hc => ?_⟩
    rcases hrows.current i row c hrow hc with hcurrent | ⟨change, hmem, hi | hi⟩
    · exact congrArg some hcurrent.symm
    · rw [hdeletes] at hdeleted
      exact absurd (List.mem_filterMap.mpr ⟨change, hmem, hi⟩) hdeleted
    · cases change <;> cases hi
      have hvisible : visible i := (hrows.cells i row hrow).mp (hc ▸ rfl)
      obtain ⟨operations, hoperations, hreload⟩ := hreloads i hmem hvisible
      exact absurd (mem_reloads (mem_issued hissued hmem hoperations hreload)) hreloaded
  obtain ⟨result, hperform, hresult⟩ :=
    perform_related mayStay_refl hvalid (by rw [hlen, List.length_map]) hkept hstay
  exact ⟨all, result, hissued, hperform, shownAfter_of_forall₂ hresult⟩

theorem update_lt (hr : Reports old new changes) {i : ℕ} (hi : .update i ∈ changes)
    (h : new[i]? = old[i]?) : i < new.length := by
  obtain ⟨a, ha, -⟩ := hr.updates i hi
  exact (List.getElem?_eq_some_iff.mp (h.trans ha)).1

theorem messageRefreshes_iff (hr : Reports old new changes) (isMine : α → Bool)
    (messageCell : ℕ → Option MessageCell) (content : α → β) :
    MessageRefreshes isMine messageCell content old new changes ↔
      ∀ i, .update i ∈ changes → new[i]? = old[i]? ∧
        ∀ kind a, messageCell i = some kind → old[i]? = some a →
          kind = if isMine a then .my else .notMy := by
  constructor
  · intro h i hi
    refine ⟨h.obtained i hi trivial, fun kind a hkind ha => ?_⟩
    obtain ⟨operations, hoperations, hreload⟩ := h.reloads i hi (hkind ▸ rfl)
    rw [updateMessage, h.obtained i hi trivial, ha, Option.map_some, hkind] at hoperations
    obtain rfl := Option.some.inj hoperations
    by_contra hne
    rw [if_neg fun heq => hne (Option.some.inj heq)] at hreload
    cases hreload
  · intro h
    have hreloads : ∀ i, .update i ∈ changes → (messageCell i).isSome →
        ∃ operations, updateMessage isMine new messageCell i = some operations ∧
          .reloadRows i ∈ operations := by
      intro i hi hvisible
      obtain ⟨a, ha, -⟩ := hr.updates i hi
      obtain ⟨kind, hkind⟩ := Option.isSome_iff_exists.mp hvisible
      obtain ⟨hsame, hcell⟩ := h i hi
      refine ⟨[.configure i a, .reloadRows i], ?_, by simp⟩
      rw [updateMessage, hsame, ha, Option.map_some, hkind, hcell kind a hkind ha, if_pos rfl]
    have hinside : ∀ i, .update i ∈ changes → i < new.length :=
      fun i hi => update_lt hr hi (h i hi).1
    refine ⟨fun i hi _ => hinside i hi, fun i hi _ => (h i hi).1, hreloads, fun rows hrows => ?_⟩
    apply shownAfter_of_reloads hr (updateMessage_onlyReloads isMine new messageCell) ?_ hreloads
      hrows
    intro i hi
    simpa [updateMessage] using hinside i hi

theorem channelRefreshes_iff (hr : Reports old new changes) (channelCell : ℕ → Bool)
    (content : α → β) :
    ChannelRefreshes channelCell content old new changes ↔
      ∀ i, .update i ∈ changes → channelCell i → new[i]? = old[i]? := by
  constructor
  · intro h
    exact h.obtained
  · intro h
    have hreloads : ∀ i, .update i ∈ changes → channelCell i →
        ∃ operations, updateChannel new channelCell i = some operations ∧
          .reloadRows i ∈ operations := by
      intro i hi hvisible
      obtain ⟨a, ha, -⟩ := hr.updates i hi
      refine ⟨[.configure i a, .reloadRows i], ?_, by simp⟩
      rw [updateChannel, if_pos hvisible, h i hi hvisible, ha, Option.map_some]
    refine ⟨fun i hi hvisible => update_lt hr hi (h i hi hvisible), h, hreloads,
      fun rows hrows => ?_⟩
    apply shownAfter_of_reloads hr (updateChannel_onlyReloads new channelCell) ?_ hreloads hrows
    intro i hi
    cases hvisible : channelCell i with
    | false => rw [updateChannel, hvisible, if_neg Bool.false_ne_true, Option.isSome_some]
    | true =>
      obtain ⟨operations, hoperations, -⟩ := hreloads i hi hvisible
      rw [hoperations, Option.isSome_some]

/-- An update refreshes its row exactly when its index is the object's also after the batch
and the visible cell is of the class that the message asks for; in the channel list, when
the index is right or the row is not visible. -/
theorem refreshes_iff (hr : Reports old new changes) (isMine : α → Bool)
    (messageCell : ℕ → Option MessageCell) (channelCell : ℕ → Bool) (content : α → β) :
    (MessageRefreshes isMine messageCell content old new changes ↔
      ∀ i, .update i ∈ changes → new[i]? = old[i]? ∧
        ∀ kind a, messageCell i = some kind → old[i]? = some a →
          kind = if isMine a then .my else .notMy) ∧
    (ChannelRefreshes channelCell content old new changes ↔
      ∀ i, .update i ∈ changes → channelCell i → new[i]? = old[i]?) :=
  ⟨messageRefreshes_iff hr isMine messageCell content, channelRefreshes_iff hr channelCell content⟩

end Reports

/-- The first message goes away, another one comes in its place, and the second is updated. -/
def firstReplaced : List Change := [.delete 0, .insert 0, .update 1]

theorem firstReplaced_reports : Reports ["a", "b"] ["c", "b"] firstReplaced where
  old_nodup := by decide
  new_nodup := by decide
  changes_nodup := by decide
  inserts := by
    intro i
    rcases i with _ | _ | i <;> simp [firstReplaced]
  deletes := by
    intro i
    rcases i with _ | _ | i <;> simp [firstReplaced]
  moves := by
    intro i j h
    simp [firstReplaced] at h
  updates := by
    intro i h
    obtain rfl : i = 1 := by simpa [firstReplaced] using h
    exact ⟨"b", rfl, by decide, by decide⟩
  order := by decide

theorem refreshes_firstReplaced :
    MessageRefreshes (fun _ => true) (fun _ => some .my) String.length
      ["a", "b"] ["c", "b"] firstReplaced := by
  apply (refreshes_iff firstReplaced_reports (fun _ => true) (fun _ => some .my)
    (fun _ => true) String.length).1.mpr
  intro i h
  obtain rfl : i = 1 := by simpa [firstReplaced] using h
  refine ⟨rfl, ?_⟩
  rintro kind a hkind -
  exact (Option.some.inj hkind).symm

/-- A message comes in above one that is updated in the same batch. -/
def insertedAbove : List Change := [.insert 0, .update 1]

theorem insertedAbove_reports : Reports ["a", "b"] ["c", "a", "b"] insertedAbove where
  old_nodup := by decide
  new_nodup := by decide
  changes_nodup := by decide
  inserts := by
    intro i
    rcases i with _ | _ | _ | i <;> simp [insertedAbove]
  deletes := by
    intro i
    rcases i with _ | _ | i <;> simp [insertedAbove]
  moves := by
    intro i j h
    simp [insertedAbove] at h
  updates := by
    intro i h
    obtain rfl : i = 1 := by simpa [insertedAbove] using h
    exact ⟨"b", rfl, by decide, by decide⟩
  order := by decide

/-- The update of my message finds the message of someone else, and the row keeps its cell. -/
theorem not_refreshes : ¬ ∀ (old new : List String) (changes : List Change),
    Reports old new changes → ∀ (isMine : String → Bool) (messageCell : ℕ → Option MessageCell)
      (content : String → ℕ), MessageRefreshes isMine messageCell content old new changes := by
  intro h
  obtain ⟨operations, hoperations, hreload⟩ :=
    (h _ _ _ insertedAbove_reports (· == "b") (fun i => some (if i = 0 then .notMy else .my))
      String.length).reloads 1 (by decide) rfl
  obtain rfl := Option.some.inj hoperations
  simp at hreload

end TinkoffChat.UpdatedRows

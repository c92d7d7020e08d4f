import TinkoffChat.UpdatedRows
import TinkoffChat.PartialRuns

/-!
The tables of both lists from the first fetch on. The controller reports its changes one
batch after another, and in between cells come on the screen and leave it. A row that is
reported as updated is reloaded if its visible cell is of the class that is asked for; then
it is configured with the object it has after the batch, whatever object the update found.
-/
namespace TinkoffChat.TableRuns

open BatchUpdates FetchedResults PartialRuns UpdatedRows

variable {α β : Type*}

/-- The fetched objects, what a cell configured with an object would show, and the rows. -/
structure Screen (α β : Type*) where
  objects : List α
  content : α → β
  rows : List (Row α β)

/-- The table after reloadData: it asks for its cells when they come on the screen. -/
def Screen.load (objects : List α) (content : α → β) : Screen α β :=
  ⟨objects, content, objects.map fun a => ⟨a, none⟩⟩

/-- What the visible cell of a row was configured with. -/
def Screen.shown (s : Screen α β) (row : ℕ) : Option β := s.rows[row]?.bind Row.shown

inductive Event (α β : Type*)
  | didChangeContent (objects : List α) (content : α → β) (changes : List Change)
  | willDisplay (row : ℕ)
  | didEndDisplaying (row : ℕ)
  | reloadData

/-- How a delegate updates a row, when the controller has the given objects. -/
abbrev Update (α β : Type*) :=
  Screen α β → List α → (α → β) → ℕ → Option (List (TableOperation α))

/-- The class of a visible cell was chosen by the content that it was configured with. -/
def messageUpdate (isMine : β → Bool) : Update α β := fun s objects content =>
  updateMessage (fun message => isMine (content message)) objects fun row =>
    (s.shown row).map fun c => if isMine c then .my else .notMy

def channelUpdate : Update α β := fun s objects _ =>
  updateChannel objects fun row => (s.shown row).isSome

/-- One batch of the controller, or a cell that the table asks for or drops; none when an
exception is raised. -/
def step (update : Update α β) (s : Screen α β) : Event α β → Option (Screen α β)
  | .didChangeContent objects content changes =>
    (issued (update s objects content) changes).bind fun operations =>
      ((batch operations).perform s.rows (objects.map (cellForRowAt content))).map fun rows =>
        { objects, content, rows }
  | .willDisplay row =>
    if row < s.rows.length then
      s.objects[row]?.map fun a => { s with rows := s.rows.set row (cellForRowAt s.content a) }
    else some s
  | .didEndDisplaying row => some { s with
      rows := s.rows.modify row fun r => { r with shown := none } }
  | .reloadData => some (.load s.objects s.content)

/-- The controller reports how its objects change, and names each object with other content. -/
def Reported [DecidableEq α] (s : Screen α β) : Event α β → Prop
  | .didChangeContent objects content changes =>
    Reports s.objects objects changes ∧ ∀ i a, s.objects[i]? = some a →
      content a ≠ s.content a → ∃ change ∈ changes, change.old? = some i ∨ change.updated? = some i
  | _ => True

/-- Every update that asks for an object finds one at the old index. -/
def Found (asks : Screen α β → ℕ → Prop) (s : Screen α β) : Event α β → Prop
  | .didChangeContent objects _ changes =>
    ∀ i, .update i ∈ changes → asks s i → i < objects.length
  | _ => True

/-- Each visible row that shows other content is asked for a cell of the class that it has. -/
def SameClass (isMine : β → Bool) (s : Screen α β) : Event α β → Prop
  | .didChangeContent objects content changes => ∀ i a b, .update i ∈ changes →
      (s.shown i).isSome → s.objects[i]? = some a → objects[i]? = some b →
      content a ≠ s.content a → isMine (content b) = isMine (s.content a)
  | _ => True

/-- The rows stand for the fetched objects, in their order. -/
def InPlace (s : Screen α β) : Prop := s.rows.map Row.object = s.objects

/-- No visible row shows outdated content. -/
def Shows (s : Screen α β) : Prop := ShownAfter s.content s.objects s.rows

/-- The reloads of a batch are those of its updates. -/
theorem mem_reloads_iff {update : ℕ → Option (List (TableOperation α))}
    (hupdate : OnlyReloads update) {changes : List Change} {all : List (TableOperation α)}
    (h : issued update changes = some all) {i : ℕ} :
    i ∈ (batch all).reloads ↔ .update i ∈ changes ∧
      ∃ operations, update i = some operations ∧ i ∈ (batch operations).reloads := by
  induction changes generalizing all with
  | nil =>
    obtain rfl := Option.some.inj h
    simp [batch]
  | cons c changes ih =>
    obtain ⟨first, hfirst, hmap⟩ := Option.bind_eq_some_iff.mp h
    obtain ⟨rest, hrest, rfl⟩ := Option.map_eq_some_iff.mp hmap
    simp only [batch_append, List.mem_append, ih hrest, List.mem_cons]
    cases c with
    | insert new =>
      obtain rfl := Option.some.inj hfirst
      simp [batch, TableOperation.reloaded]
    | delete old =>
      obtain rfl := Option.some.inj hfirst
      simp [batch, TableOperation.reloaded]
    | move old new =>
      obtain rfl := Option.some.inj hfirst
      simp [batch, TableOperation.reloaded]
    | update old =>
      have hfirst : update old = some first := hfirst
      by_cases hi : i = old
      · subst hi
        simp only [hfirst, Option.some.injEq, exists_eq_left', true_or, true_and]
        exact or_iff_left_of_imp And.right
      · have hno : i ∉ (batch first).reloads := by
          rcases hupdate old first hfirst with heq | heq <;> simp [heq, hi]
        simp [hno, hi]

section Batches

variable [DecidableEq α] {s : Screen α β} {objects : List α} {content : α → β}
  {changes : List Change} {update : ℕ → Option (List (TableOperation α))}
  {operations : List (TableOperation α)}

/-- The rows after a batch stand for the objects that were reported; each is configured with
its object or has been there before. -/
theorem perform_rows (hs : InPlace s) (hr : Reports s.objects objects changes)
    (hupdate : OnlyReloads update) (h : issued update changes = some operations) :
    ∃ rows, (batch operations).perform s.rows (objects.map (cellForRowAt content)) = some rows ∧
      rows.map Row.object = objects ∧ ∀ row ∈ rows, row = cellForRowAt content row.object ∨
        ∃ i, s.rows[i]? = some row ∧ i ∉ (batch operations).deletes ∧
          i ∉ (batch operations).reloads := by
  obtain ⟨hdeletes, hinserts, hsublist⟩ := batch_issued hupdate h
  have hlen : s.rows.length = s.objects.length := by rw [← hs, List.length_map]
  have hvalid : (batch operations).Valid s.rows.length
      (objects.map (cellForRowAt content)).length := by
    rw [hlen, List.length_map]
    exact batch_valid hr hdeletes hinserts hsublist
  have hkept : without (batch operations).deletes 0 (s.objects.map (cellForRowAt content)) =
      without (batch operations).inserts 0 (objects.map (cellForRowAt content)) := by
    rw [without_map, without_map, hdeletes, hinserts, without_eq hr]
  -- a row that is left stands for its object, and a new one is configured with it
  let R (row fresh : Row α β) : Prop := row.object = fresh.object ∧ (row = fresh ∨
    ∃ i, s.rows[i]? = some row ∧ i ∉ (batch operations).deletes ∧
      i ∉ (batch operations).reloads)
  have hstay : ∀ i row fresh, s.rows[i]? = some row →
      (s.objects.map (cellForRowAt content))[i]? = some fresh →
      i ∉ (batch operations).deletes → i ∉ (batch operations).reloads → R row fresh := by
    intro i row fresh hrow hfresh hdelete hreload
    refine ⟨?_, Or.inr ⟨i, hrow, hdelete, hreload⟩⟩
    rw [← hs, List.map_map, List.getElem?_map, hrow] at hfresh
    obtain rfl := Option.some.inj hfresh
    rfl
  obtain ⟨rows, hperform, hrows⟩ := perform_related (R := R) (fun row => ⟨rfl, Or.inl rfl⟩)
    hvalid (by rw [hlen, List.length_map]) hkept hstay
  have hfresh (row : Row α β) (a : α) (h : R row (cellForRowAt content a)) :
      (row = cellForRowAt content row.object ∨ ∃ i, s.rows[i]? = some row ∧
        i ∉ (batch operations).deletes ∧ i ∉ (batch operations).reloads) ∧ row.object = a := by
    refine ⟨h.2.imp_left fun heq => ?_, h.1⟩
    rw [h.1]
    exact heq
  obtain ⟨hcells, hobjects⟩ := (List.forall₂_and_left rows objects).mp
    ((List.forall₂_map_right_iff.mp hrows).imp hfresh)
  refine ⟨rows, hperform, ?_, hcells⟩
  rwa [← List.forall₂_eq_eq_eq, List.forall₂_map_left_iff]

/-- An update names a row that the batch does not delete. -/
theorem not_mem_deletes (hr : Reports s.objects objects changes) (hupdate : OnlyReloads update)
    (h : issued update changes = some operations) {i : ℕ} (hi : .update i ∈ changes) :
    i ∉ (batch operations).deletes := by
  obtain ⟨a, ha, hnew, hmoved⟩ := hr.updates i hi
  rw [(batch_issued hupdate h).1, mem_old_iff hr ha, hmoved]
  simpa using hnew

end Batches

section Steps

variable [DecidableEq α] {update : Update α β} {s t : Screen α β} {e : Event α β}

/-- The delegate answers each update of the batch. -/
def Answers (update : Update α β) (s : Screen α β) : Event α β → Prop
  | .didChangeContent objects content changes =>
    ∀ i, .update i ∈ changes → (update s objects content i).isSome
  | _ => True

/-- The delegate reloads the visible rows with other content. -/
def Renews (update : Update α β) (s : Screen α β) : Event α β → Prop
  | .didChangeContent objects content changes => ∀ i a, .update i ∈ changes →
      (s.shown i).isSome → s.objects[i]? = some a → content a ≠ s.content a →
      ∃ operations, update s objects content i = some operations ∧ i ∈ (batch operations).reloads
  | _ => True

omit [DecidableEq α] in
theorem getElem?_object (hs : InPlace s) {i : ℕ} {row : Row α β} (hrow : s.rows[i]? = some row) :
    s.objects[i]? = some row.object := by
  rw [← hs, List.getElem?_map, hrow, Option.map_some]

omit [DecidableEq α] in
/-- What a visible cell shows is the content of its object. -/
theorem shown_eq (hs : Shows s) {i : ℕ} {a : α} (hvisible : (s.shown i).isSome)
    (ha : s.objects[i]? = some a) : ∃ row, s.rows[i]? = some row ∧ row.object = a ∧
      row.shown = some (s.content a) ∧ s.shown i = some (s.content a) := by
  obtain ⟨c, hc⟩ := Option.isSome_iff_exists.mp hvisible
  obtain ⟨row, hrow, hshown⟩ := Option.bind_eq_some_iff.mp hc
  obtain rfl : row.object = a := Option.some.inj ((getElem?_object hs.1 hrow).symm.trans ha)
  obtain rfl := hs.2 row (List.mem_of_getElem? hrow) c hshown
  exact ⟨row, hrow, rfl, hshown, hc⟩

omit [DecidableEq α] in
theorem map_object_hidden (rows : List (Row α β)) (i : ℕ) :
    (rows.modify i fun r => { r with shown := none }).map Row.object = rows.map Row.object := by
  refine List.ext_getElem? fun j => ?_
  rw [List.getElem?_map, List.getElem?_map, List.getElem?_modify, Option.map_eq_map, Option.map_map]
  congr 1
  funext r
  by_cases hij : i = j <;> simp [hij]

omit [DecidableEq α] in
theorem mem_hidden {rows : List (Row α β)} {i : ℕ} {r : Row α β}
    (h : r ∈ rows.modify i fun r => { r with shown := none }) : r ∈ rows ∨ r.shown = none := by
  obtain ⟨j, hj⟩ := List.mem_iff_getElem?.mp h
  rw [List.getElem?_modify] at hj
  obtain ⟨old, hold, rfl⟩ := Option.map_eq_some_iff.mp hj
  by_cases hij : i = j
  · exact Or.inr (by rw [if_pos hij])
  · rw [if_neg hij]
    exact Or.inl (List.mem_of_getElem? hold)

theorem step_isSome_iff (hupdate : ∀ s objects content, OnlyReloads (update s objects content))
    (hs : InPlace s) (he : Reported s e) : (step update s e).isSome ↔ Answers update s e := by
  cases e with
  | didChangeContent objects content changes =>
    rw [Answers, ← issued_isSome_iff, step]
    cases hissued : issued (update s objects content) changes with
    | none => exact iff_of_false nofun nofun
    | some operations =>
      obtain ⟨rows, hperform, -⟩ := perform_rows hs he.1 (hupdate s objects content) hissued
      rw [Option.bind_some, hperform]
      exact iff_of_true rfl rfl
  | willDisplay row =>
    refine iff_of_true ?_ trivial
    rw [step]
    split
    · rename_i hlt
      rw [← List.length_map Row.object, hs] at hlt
      rw [List.getElem?_eq_getElem hlt]
      rfl
    · rfl
  | didEndDisplaying row => exact iff_of_true rfl trivial
  | reloadData => exact iff_of_true rfl trivial

omit [DecidableEq α] in
theorem load_shows (objects : List α) (content : α → β) : Shows (.load objects content) := by
  refine ⟨?_, fun row hrow c hc => ?_⟩
  · simp [Screen.load, Function.comp_def]
  · obtain ⟨a, -, rfl⟩ := List.mem_map.mp hrow
    cases hc

theorem step_inPlace (hupdate : ∀ s objects content, OnlyReloads (update s objects content))
    (hs : InPlace s) (he : Reported s e) (h : step update s e = some t) : InPlace t := by
  cases e with
  | didChangeContent objects content changes =>
    obtain ⟨operations, hissued, hmap⟩ := Option.bind_eq_some_iff.mp h
    obtain ⟨rows, hperform, rfl⟩ := Option.map_eq_some_iff.mp hmap
    obtain ⟨rows', hperform', hobjects, -⟩ :=
      perform_rows hs he.1 (hupdate s objects content) hissued
    obtain rfl := Option.some.inj (hperform.symm.trans hperform')
    exact hobjects
  | willDisplay row =>
    rw [step] at h
    split at h
    · obtain ⟨a, ha, rfl⟩ := Option.map_eq_some_iff.mp h
      change (s.rows.set row _).map Row.object = s.objects
      obtain ⟨hlt, rfl⟩ := List.getElem?_eq_some_iff.mp ha
      rw [List.map_set, hs]
      exact List.set_getElem_self hlt
    · obtain rfl := Option.some.inj h
      exact hs
  | didEndDisplaying row =>
    obtain rfl := Option.some.inj h
    exact (map_object_hidden s.rows row).trans hs
  | reloadData =>
    obtain rfl := Option.some.inj h
    exact (load_shows s.objects s.content).1

/-- A batch leaves no visible row outdated if it renews all those with other content. -/
theorem perform_shows_iff {objects : List α} {content : α → β} {changes : List Change}
    (hupdate : ∀ s objects content, OnlyReloads (update s objects content))
    (hs : Shows s) (he : Reported s (.didChangeContent objects content changes))
    (h : step update s (.didChangeContent objects content changes) = some t) :
    Shows t ↔ Renews update s (.didChangeContent objects content changes) := by
  have hplace := step_inPlace hupdate hs.1 he h
  obtain ⟨operations, hissued, hmap⟩ := Option.bind_eq_some_iff.mp h
  obtain ⟨rows, hperform, rfl⟩ := Option.map_eq_some_iff.mp hmap
  have honly := hupdate s objects content
  constructor
  · intro hshows i a hi hvisible ha hne
    obtain ⟨row, hrow, rfl, hshown, -⟩ := shown_eq hs hvisible ha
    by_contra hno
    have hreload : i ∉ (batch operations).reloads :=
      fun hmem => hno ((mem_reloads_iff honly hissued).mp hmem).2
    have hmem := mem_perform hperform hrow (not_mem_deletes he.1 honly hissued hi) hreload
    exact hne (hshows.2 row hmem _ hshown).symm
  · intro hrenews
    refine ⟨hplace, fun row hmem c hc => ?_⟩
    obtain ⟨rows', hperform', -, hcells⟩ := perform_rows hs.1 he.1 honly hissued
    obtain rfl := Option.some.inj (hperform.symm.trans hperform')
    rcases hcells row hmem with hfresh | ⟨i, hrow, hdelete, hreload⟩
    · rw [hfresh] at hc
      exact (Option.some.inj hc).symm
    · have hold : c = s.content row.object := hs.2 row (List.mem_of_getElem? hrow) c hc
      have ha := getElem?_object hs.1 hrow
      by_contra hne
      obtain ⟨change, hchange, hi | hi⟩ := he.2 i row.object ha fun heq => hne (hold.trans heq.symm)
      · rw [(batch_issued honly hissued).1] at hdelete
        exact hdelete (List.mem_filterMap.mpr ⟨change, hchange, hi⟩)
      · cases change <;> cases hi
        have hvisible : (s.shown i).isSome := by
          rw [Screen.shown, hrow, Option.bind_some, hc, Option.isSome_some]
        have hrenewed := hrenews i row.object hchange hvisible ha fun heq => hne (hold.trans heq.symm)
        exact hreload ((mem_reloads_iff honly hissued).mpr ⟨hchange, hrenewed⟩)

theorem step_shows_iff (hupdate : ∀ s objects content, OnlyReloads (update s objects content))
    (hs : Shows s) (he : Reported s e) (h : step update s e = some t) :
    Shows t ↔ Renews update s e := by
  have hplace := step_inPlace hupdate hs.1 he h
  cases e with
  | didChangeContent objects content changes => exact perform_shows_iff hupdate hs he h
  | willDisplay row =>
    refine iff_of_true ⟨hplace, fun r hr c hc => ?_⟩ trivial
    rw [step] at h
    split at h
    · obtain ⟨a, ha, rfl⟩ := Option.map_eq_some_iff.mp h
      rcases List.mem_or_eq_of_mem_set hr with hold | rfl
      · exact hs.2 r hold c hc
      · exact (Option.some.inj hc).symm
    · obtain rfl := Option.some.inj h
      exact hs.2 r hr c hc
  | didEndDisplaying row =>
    refine iff_of_true ⟨hplace, fun r hr c hc => ?_⟩ trivial
    obtain rfl := Option.some.inj h
    rcases mem_hidden hr with hold | hnone
    · exact hs.2 r hold c hc
    · cases hnone.symm.trans hc
  | reloadData =>
    obtain rfl := Option.some.inj h
    exact iff_of_true (load_shows s.objects s.content) trivial

omit [DecidableEq α] in
theorem messageUpdate_answers (isMine : β → Bool) :
    Answers (messageUpdate isMine) s e ↔ Found (fun _ _ => True) s e := by
  cases e with
  | didChangeContent objects content changes =>
    refine forall_congr' fun i => imp_congr_right fun _ => ?_
    rw [messageUpdate, updateMessage, Option.isSome_map, isSome_getElem?, imp_iff_right trivial]
  | _ => exact Iff.rfl

omit [DecidableEq α] in
theorem channelUpdate_answers :
    Answers channelUpdate s e ↔ Found (fun (s : Screen α β) i => (s.shown i).isSome) s e := by
  cases e with
  | didChangeContent objects content changes =>
    refine forall_congr' fun i => imp_congr_right fun _ => ?_
    rw [channelUpdate, updateChannel]
    by_cases hvisible : (s.shown i).isSome
    · rw [if_pos hvisible, Option.isSome_map, isSome_getElem?, imp_iff_right hvisible]
    · rw [if_neg hvisible]
      exact iff_of_true rfl fun h => absurd h hvisible
  | _ => exact Iff.rfl

omit [DecidableEq α] in
/-- The update of a visible row compares the senders of what was there and of what it found. -/
theorem messageUpdate_visible (isMine : β → Bool) (objects : List α) (content : α → β) {i : ℕ}
    {c : β} (h : s.shown i = some c) :
    messageUpdate isMine s objects content i = objects[i]?.map fun b =>
      if isMine (content b) = isMine c then [.configure i b, .reloadRows i] else [] := by
  have hclass (p q : Bool) : some (if p then MessageCell.my else .notMy) =
      some (if q then .my else .notMy) ↔ q = p := by
    cases p <;> cases q <;> decide
  simp only [messageUpdate, updateMessage, h, Option.map_some, hclass]

omit [DecidableEq α] in
theorem messageUpdate_renews (isMine : β → Bool) (hs : Shows s)
    (hanswers : Answers (messageUpdate isMine) s e) :
    Renews (messageUpdate isMine) s e ↔ SameClass isMine s e := by
  cases e with
  | didChangeContent objects content changes =>
    constructor
    · intro h i a b hi hvisible ha hb hne
      obtain ⟨operations, hoperations, hreload⟩ := h i a hi hvisible ha hne
      obtain ⟨-, -, -, -, hshown⟩ := shown_eq hs hvisible ha
      rw [messageUpdate_visible isMine objects content hshown, hb, Option.map_some] at hoperations
      obtain rfl := Option.some.inj hoperations
      by_contra hclass
      rw [if_neg hclass] at hreload
      cases hreload
    · intro h i a hi hvisible ha hne
      obtain ⟨operations, hoperations⟩ := Option.isSome_iff_exists.mp (hanswers i hi)
      refine ⟨operations, hoperations, ?_⟩
      obtain ⟨-, -, -, -, hshown⟩ := shown_eq hs hvisible ha
      rw [messageUpdate_visible isMine objects content hshown] at hoperations
      obtain ⟨b, hb, rfl⟩ := Option.map_eq_some_iff.mp hoperations
      rw [if_pos (h i a b hi hvisible ha hb hne)]
      exact List.mem_singleton_self i
  | _ => exact Iff.rfl

omit [DecidableEq α] in
/-- A visible row of the channel list is reloaded whatever channel the update found. -/
theorem channelUpdate_renews (hanswers : Answers channelUpdate s e) : Renews channelUpdate s e := by
  cases e with
  | didChangeContent objects content changes =>
    intro i a hi hvisible _ _
    obtain ⟨operations, hoperations⟩ := Option.isSome_iff_exists.mp (hanswers i hi)
    refine ⟨operations, hoperations, ?_⟩
    rw [channelUpdate, updateChannel, if_pos hvisible] at hoperations
    obtain ⟨channel, -, rfl⟩ := Option.map_eq_some_iff.mp hoperations
    exact List.mem_singleton_self i
  | _ => trivial

/-- The channel list raises exactly at an update of a visible row whose old index lies beyond
the new channels. Until then its rows are the fetched channels, and show them as they are. -/
theorem channels_shown {objects : List α} {content : α → β} {es : List (Event α β)}
    (ha : Along (step channelUpdate) Reported (.load objects content) es) :
    ((run (step channelUpdate) (.load objects content) es).isSome ↔ Along (step channelUpdate)
        (Found fun s i => (s.shown i).isSome) (.load objects content) es) ∧
      ∀ t, run (step channelUpdate) (.load objects content) es = some t → Shows t := by
  have hupdate (s : Screen α β) (objects : List α) (content : α → β) :
      OnlyReloads (channelUpdate s objects content) := updateChannel_onlyReloads _ _
  have hstep (s : Screen α β) (e : Event α β) (t : Screen α β) (hs : Shows s)
      (he : Reported s e) (h : step channelUpdate s e = some t) : Shows t := by
    have hanswers := (step_isSome_iff hupdate hs.1 he).mp (h ▸ rfl)
    exact (step_shows_iff hupdate hs he h).mpr (channelUpdate_renews hanswers)
  constructor
  · exact run_isSome_iff_along hstep
      (fun s e hs he => (step_isSome_iff hupdate hs.1 he).trans channelUpdate_answers)
      (load_shows objects content) ha
  · exact fun t ht => run_invariant_along hstep (load_shows objects content) ha ht

/-- The message list raises exactly at an update, of any row, whose old index lies beyond the
new messages. Until then its rows are the fetched messages, and they show them as they are in
every state exactly if each visible row with other content has the class of cell that is
asked for at its old index. -/
theorem messages_shown (isMine : β → Bool) {objects : List α} {content : α → β}
    {es : List (Event α β)}
    (ha : Along (step (messageUpdate isMine)) Reported (.load objects content) es) :
    ((run (step (messageUpdate isMine)) (.load objects content) es).isSome ↔
        Along (step (messageUpdate isMine)) (Found fun _ _ => True) (.load objects content) es) ∧
      ∀ t, run (step (messageUpdate isMine)) (.load objects content) es = some t →
        InPlace t ∧
        ((∀ fs, fs <+: es → ∀ v,
            run (step (messageUpdate isMine)) (.load objects content) fs = some v → Shows v) ↔
          Along (step (messageUpdate isMine)) (SameClass isMine) (.load objects content) es) := by
  have hupdate (s : Screen α β) (objects : List α) (content : α → β) :
      OnlyReloads (messageUpdate isMine s objects content) := updateMessage_onlyReloads _ _ _
  have hload := load_shows objects content
  refine ⟨?_, fun t ht => ⟨?_, ?_⟩⟩
  · exact run_isSome_iff_along (fun s e t => step_inPlace hupdate)
      (fun s e hs he => (step_isSome_iff hupdate hs he).trans (messageUpdate_answers isMine))
      hload.1 ha
  · exact run_invariant_along (fun s e t => step_inPlace hupdate) hload.1 ha ht
  · have hiff (s : Screen α β) (e : Event α β) (t : Screen α β) (hs : Shows s)
        (he : Reported s e) (h : step (messageUpdate isMine) s e = some t) :
        Shows t ↔ SameClass isMine s e := by
      have hanswers := (step_isSome_iff hupdate hs.1 he).mp (h ▸ rfl)
      exact (step_shows_iff hupdate hs he h).trans (messageUpdate_renews isMine hs hanswers)
    exact forall_prefix_iff_along_of_along (fun s => id) hiff
      (fun s e t hs he hclass h => (hiff s e t hs he h).mpr hclass) hload ha ht

end Steps

/-- The sender is me, or not, and a text has been edited so often. -/
def sentAs (edits : ℕ) (message : String) : Bool × ℕ :=
  if message = "b" then (true, edits) else (false, 0)

/-- Two rows are on the screen when a message comes in above them and the second is edited. -/
def editedBelow : List (Event String (Bool × ℕ)) :=
  [.willDisplay 0, .willDisplay 1, .didChangeContent ["c", "a", "b"] (sentAs 1) insertedAbove]

theorem editedBelow_reported (update : Update String (Bool × ℕ)) :
    Along (step update) Reported (.load ["a", "b"] (sentAs 0)) editedBelow := by
  refine ⟨trivial, fun s hs => ⟨trivial, fun t ht => ⟨?_, fun _ _ => trivial⟩⟩⟩
  obtain rfl := Option.some.inj hs
  obtain rfl := Option.some.inj ht
  refine ⟨insertedAbove_reports, fun i a ha hne => ⟨.update 1, by decide, Or.inr ?_⟩⟩
  rcases i with _ | _ | i
  · obtain rfl := Option.some.inj ha
    exact absurd rfl hne
  · rfl
  · cases ha

theorem channels_shown_editedBelow :
    ∃ t, run (step channelUpdate) (.load ["a", "b"] (sentAs 0)) editedBelow = some t ∧
      t.shown 2 = some (true, 1) ∧ Shows t := by
  obtain ⟨t, ht⟩ : ∃ t, run (step channelUpdate) (.load ["a", "b"] (sentAs 0)) editedBelow =
    some t := ⟨_, rfl⟩
  refine ⟨t, ht, ?_, (channels_shown (editedBelow_reported channelUpdate)).2 t ht⟩
  obtain rfl := Option.some.inj ht
  rfl

/-- In the message list the update finds the other's message, and my cell is not reloaded. -/
theorem messages_shown_editedBelow :
    ∃ t, run (step (messageUpdate Prod.fst)) (.load ["a", "b"] (sentAs 0)) editedBelow = some t ∧
      InPlace t ∧ ¬ ∀ fs, fs <+: editedBelow → ∀ v,
        run (step (messageUpdate Prod.fst)) (.load ["a", "b"] (sentAs 0)) fs = some v →
          Shows v := by
  obtain ⟨t, ht⟩ : ∃ t, run (step (messageUpdate Prod.fst)) (.load ["a", "b"] (sentAs 0))
    editedBelow = some t := ⟨_, rfl⟩
  obtain ⟨hplace, hiff⟩ :=
    (messages_shown Prod.fst (editedBelow_reported (messageUpdate Prod.fst))).2 t ht
  refine ⟨t, ht, hplace, fun hshows => ?_⟩
  obtain ⟨-, hrest⟩ := hiff.mp hshows
  obtain ⟨-, hlast⟩ := hrest _ rfl
  have hclass := (hlast _ rfl).1 1 "b" "a" (by decide) rfl rfl rfl (by decide)
  cases hclass

end TinkoffChat.TableRuns

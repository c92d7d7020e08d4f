import TinkoffChat.ChannelDeletion

/-!
A channel snapshot in two phases, and change by change. The listener acts on
the removals while it walks the changes and saves all other channels at the
end. That is to handle the removals one by one and then the rest, and changes
to different documents commute, so any other order leaves the same tables and
asks Firestore for the same deletions.
-/
namespace TinkoffChat.SnapshotPhases

open ChangeLog Documents LocalStore FireStoreService ChannelDeletion

/-- One change handled by itself, with its own performSave: a channel that is removed is
deleted with its messages, any other is saved, and a document without a name goes unheeded. -/
def handleChange (s : Service) (document : DocumentChange) : Service :=
  match ChannelModel.ofDocument document with
  | none => s
  | some model =>
    if document.type = .removed then deleteChannelData model.identifier s
    else { s with store := s.store.insertChannel model }

def handleInOrder (documentChanges : List DocumentChange) (s : Service) : Service :=
  documentChanges.foldl handleChange s

/-- The same tables, and the same delete requests in some order. -/
structure SameOutcome (s t : Service) : Prop where
  store_eq : s.store = t.store
  requests_perm : s.requests.Perm t.requests

/-- The channel that the listener removes on a change. -/
def removedBy (document : DocumentChange) : Option String :=
  if document.type = .removed then
    (ChannelModel.ofDocument document).map ChannelModel.identifier
  else none

/-- The message table without the messages and the links that a channel's removal takes. -/
def dropChannel (messages : Table String MessageDb) (identifier : String) :
    Table String MessageDb :=
  fun m => (apply messages (.drop identifier) m).map (Store.nullify identifier)

theorem sameOutcome_equivalence : Equivalence SameOutcome where
  refl _ := ⟨rfl, List.Perm.refl _⟩
  symm h := ⟨h.store_eq.symm, h.requests_perm.symm⟩
  trans h h' := ⟨h.store_eq.trans h'.store_eq, h.requests_perm.trans h'.requests_perm⟩

theorem removedBy_eq_some {document : DocumentChange} {identifier : String}
    (h : removedBy document = some identifier) : document.documentID = identifier := by
  unfold removedBy at h
  split at h
  · obtain ⟨model, hmodel, rfl⟩ := Option.map_eq_some_iff.mp h
    exact (ChannelModel.identifier_of_ofDocument hmodel).symm
  · cases h

theorem nullify_comm (a b : String) (row : MessageDb) :
    Store.nullify a (Store.nullify b row) = Store.nullify b (Store.nullify a row) := by
  by_cases ha : row.channel = some a
  · by_cases hb : row.channel = some b
    · obtain rfl : a = b := Option.some.inj (ha.symm.trans hb)
      rfl
    · rw [Store.nullify_of_ne hb, Store.nullify, if_pos ha]
      exact (Store.nullify_of_ne (Option.some_ne_none b).symm).symm
  · by_cases hb : row.channel = some b
    · rw [Store.nullify_of_ne ha, Store.nullify.eq_def b, if_pos hb]
      exact Store.nullify_of_ne (Option.some_ne_none a).symm
    · rw [Store.nullify_of_ne ha, Store.nullify_of_ne hb, Store.nullify_of_ne ha]

theorem dropChannel_comm (messages : Table String MessageDb) (a b : String) :
    dropChannel (dropChannel messages a) b = dropChannel (dropChannel messages b) a := by
  funext m
  have hdrop (t : Table String MessageDb) (c : String) :
      dropChannel t c m = if c = m then none else (t m).map (Store.nullify c) := by
    by_cases hc : c = m
    · subst hc
      rw [dropChannel, apply_drop_self, if_pos rfl, Option.map_none]
    · rw [dropChannel, apply_drop_of_ne _ hc, if_neg hc]
  rw [hdrop, hdrop, hdrop, hdrop]
  by_cases ha : a = m
  · simp [ha]
  · by_cases hb : b = m
    · simp [hb]
    · simp only [if_neg ha, if_neg hb, Option.map_map, Function.comp_def, nullify_comm a b]

section HandleChange

variable (document : DocumentChange) (s : Service)

/-- The listener handles a snapshot with a single change so. -/
theorem updateChannels_singleton :
    updateChannels (some [document]) s = handleChange s document := by
  rw [handleChange, updateChannels, List.foldl_cons, List.foldl_nil, walkChange]
  cases ChannelModel.ofDocument document with
  | none => rfl
  | some model =>
    by_cases hr : document.type = .removed
    · simp only [if_pos hr]
      rfl
    · simp only [if_neg hr]
      rfl

theorem handleChange_channels : (handleChange s document).store.channels =
    replay s.store.channels (channelLog [document]) := by
  have hn : ([document].map DocumentChange.documentID).Nodup := List.nodup_singleton _
  rw [← updateChannels_singleton]
  exact updateChannels_channels_of_nodup hn s

theorem handleChange_messages : (handleChange s document).store.messages =
    (removedBy document).elim s.store.messages (dropChannel s.store.messages) := by
  rw [handleChange, removedBy]
  cases ChannelModel.ofDocument document with
  | none => simp
  | some model =>
    by_cases hr : document.type = .removed
    · simp only [if_pos hr, Option.map_some, Option.elim_some]
      funext m
      rw [deleteChannelData, deleteChannel_messages, deleteChannelMessages_messages, dropChannel]
    · simp [hr]

theorem handleChange_requests : (handleChange s document).requests =
    s.requests ++ (removedBy document).elim [] fun identifier => deletionRequests identifier s := by
  rw [handleChange, removedBy]
  cases ChannelModel.ofDocument document with
  | none => simp
  | some model =>
    by_cases hr : document.type = .removed
    · simp only [if_pos hr, Option.map_some, Option.elim_some]
      rw [deletionRequests, deleteChannelData, deleteChannel_requests,
        deleteChannelMessages_requests, List.append_assoc, List.drop_left]
    · simp [hr]

end HandleChange

theorem deletionRequests_congr {identifier : String} {s t : Service}
    (hmessages : (s.store.messages identifier).isSome = (t.store.messages identifier).isSome)
    (hchannels : (s.store.channels identifier).isSome = (t.store.channels identifier).isSome) :
    deletionRequests identifier s = deletionRequests identifier t := by
  rw [deletionRequests_eq, deletionRequests_eq, Store.fetchMessages, Store.fetchMessages,
    Store.fetchChannels, Store.fetchChannels, hmessages, hchannels]

/-- A change to another document does not touch what a removal asks for. -/
theorem deletionRequests_handleChange {document : DocumentChange} {identifier : String}
    (h : document.documentID ≠ identifier) (s : Service) :
    deletionRequests identifier (handleChange s document) = deletionRequests identifier s := by
  apply deletionRequests_congr
  · rw [handleChange_messages]
    cases hr : removedBy document with
    | none => rfl
    | some removed =>
      have hne : removed ≠ identifier := removedBy_eq_some hr ▸ h
      rw [Option.elim_some, dropChannel, Option.isSome_map, apply_drop_of_ne _ hne]
  · rw [handleChange_channels, replay_of_not_mem]
    intro c hc
    obtain ⟨d, hd, hread⟩ := List.mem_filterMap.mp hc
    obtain rfl := List.mem_singleton.mp hd
    obtain ⟨value, -, rfl⟩ := Option.map_eq_some_iff.mp hread
    exact h

theorem handleChange_congr {s t : Service} (document : DocumentChange) (h : SameOutcome s t) :
    SameOutcome (handleChange s document) (handleChange t document) := by
  constructor
  · apply Store.ext
    · rw [handleChange_channels, handleChange_channels, h.store_eq]
    · rw [handleChange_messages, handleChange_messages, h.store_eq]
  · have hissued (identifier : String) :
        deletionRequests identifier s = deletionRequests identifier t :=
      deletionRequests_congr (by rw [h.store_eq]) (by rw [h.store_eq])
    rw [handleChange_requests, handleChange_requests]
    simp only [hissued]
    exact h.requests_perm.append_right _

/-- Changes to different documents may be handled in either order. -/
theorem handleChange_comm (s : Service) {d e : DocumentChange}
    (h : d.documentID ≠ e.documentID) :
    SameOutcome (handleChange (handleChange s d) e) (handleChange (handleChange s e) d) := by
  constructor
  · apply Store.ext
    · simp only [handleChange_channels, ← replay_append, ← channelLog_append]
      apply replay_perm ((List.perm_append_comm).filterMap _)
      apply channelLog_keys_nodup
      simpa using h
    · simp only [handleChange_messages]
      cases removedBy d <;> cases removedBy e <;>
        simp only [Option.elim_none, Option.elim_some, dropChannel_comm]
  · have hissued {a b : DocumentChange} (hab : a.documentID ≠ b.documentID) :
        ((removedBy b).elim [] fun identifier => deletionRequests identifier (handleChange s a)) =
          (removedBy b).elim [] fun identifier => deletionRequests identifier s := by
      cases hr : removedBy b with
      | none => rfl
      | some identifier =>
        exact deletionRequests_handleChange (removedBy_eq_some hr ▸ hab) s
    rw [handleChange_requests, hissued h, handleChange_requests]
    rw [handleChange_requests, hissued h.symm, handleChange_requests]
    rw [List.append_assoc, List.append_assoc]
    exact List.perm_append_comm.append_left _

theorem handleInOrder_perm {documentChanges other : List DocumentChange}
    (hp : documentChanges.Perm other)
    (hn : (documentChanges.map DocumentChange.documentID).Nodup) (s : Service) :
    SameOutcome (handleInOrder documentChanges s) (handleInOrder other s) :=
  foldl_perm sameOutcome_equivalence (fun _ _ document h => handleChange_congr document h)
    (fun s _ _ h => handleChange_comm s h) hp hn s

/-- The walk over the changes handles the removals in their order. -/
theorem walked_service (documentChanges : List DocumentChange) (s : Service)
    (channels : List ChannelModel) :
    (documentChanges.foldl walkChange (s, channels)).1 =
      handleInOrder (documentChanges.filter fun document => document.type = .removed) s := by
  induction documentChanges generalizing s channels with
  | nil => rfl
  | cons document rest ih =>
    rw [List.foldl_cons, ih]
    by_cases hr : document.type = .removed
    · rw [List.filter_cons_of_pos (by simpa using hr), handleInOrder, handleInOrder,
        List.foldl_cons, handleChange]
      cases hmodel : ChannelModel.ofDocument document <;>
        simp [walkChange, hmodel, hr, deleteChannelData]
    · rw [List.filter_cons_of_neg (by simpa using hr)]
      cases hmodel : ChannelModel.ofDocument document <;> simp [walkChange, hmodel, hr]

/-- The save at the end handles the other changes in their order. -/
theorem saved_service {documentChanges : List DocumentChange}
    (h : ∀ document ∈ documentChanges, document.type ≠ .removed) (s : Service) :
    { s with
      store := (documentChanges.filterMap ChannelModel.ofDocument).foldl Store.insertChannel
        s.store } = handleInOrder documentChanges s := by
  induction documentChanges generalizing s with
  | nil => rfl
  | cons document rest ih =>
    have hr : document.type ≠ .removed := h document List.mem_cons_self
    have hrest := ih (fun d hd => h d (List.mem_cons_of_mem _ hd))
    rw [handleInOrder, List.foldl_cons, handleChange]
    cases hmodel : ChannelModel.ofDocument document with
    | none => simpa [hmodel, handleInOrder] using hrest s
    | some model =>
      simpa [hmodel, hr, handleInOrder] using hrest { s with store := s.store.insertChannel model }

/-- The listener handles the removals one by one, and then the other changes. -/
theorem updateChannels_eq (documentChanges : List DocumentChange) (s : Service) :
    updateChannels (some documentChanges) s = handleInOrder (twoPhases documentChanges) s := by
  have hrest : ∀ document ∈ documentChanges.filter
      (fun document => !decide (document.type = .removed)), document.type ≠ .removed := by
    intro document hd
    simpa using (List.mem_filter.mp hd).2
  rw [twoPhases, handleInOrder, List.foldl_append]
  change _ = handleInOrder _ (handleInOrder _ s)
  rw [← saved_service hrest, ← walked_service documentChanges s []]
  rw [updateChannels, walked_models, List.nil_append]

/-- A snapshot that names each document once leaves the same tables and issues the same
deletions in two phases as change by change, in its own order or in any other. -/
theorem updateChannels_sameOutcome {documentChanges other : List DocumentChange}
    (hn : (documentChanges.map DocumentChange.documentID).Nodup)
    (hp : other.Perm documentChanges) (s : Service) :
    SameOutcome (updateChannels (some documentChanges) s) (handleInOrder other s) := by
  rw [updateChannels_eq]
  have hphases : (twoPhases documentChanges).Perm other :=
    (twoPhases_perm documentChanges).trans hp.symm
  apply handleInOrder_perm hphases
  exact ((twoPhases_perm documentChanges).map _).nodup_iff.mpr hn

/-- The channel added with `createChannel`'s fields is saved after the removal that follows it. -/
def sportBeforeRemoval : List DocumentChange :=
  [⟨.added, "c3", createChannel "Sport"⟩, ⟨.removed, "c1", createChannel "General"⟩]

theorem updateChannels_sameOutcome_sportBeforeRemoval :
    SameOutcome (updateChannels (some sportBeforeRemoval) keyedMessage)
      (handleInOrder sportBeforeRemoval.reverse keyedMessage) ∧
    (updateChannels (some sportBeforeRemoval) keyedMessage).requests =
      [.message "c1" "c1", .channel "c1"] :=
  ⟨updateChannels_sameOutcome (by decide) (List.reverse_perm _) keyedMessage, by decide⟩

end TinkoffChat.SnapshotPhases

import TinkoffChat.LocalStore

/-!
The snapshot listeners of FireStoreService and the deletes they issue. A
handler acts on the local tables and on the delete requests sent to Firestore,
kept in the order they are sent. The saves of the Core Data stack are taken to
succeed, so a block of performSave acts on the stored tables. Each handler's
effect on each table is stated as the replay of a log of changes.
-/
namespace TinkoffChat.FireStoreService

open ChangeLog Documents LocalStore

/-- The documents a delete request can name: `channels/c` and `channels/c/messages/m`. -/
inductive DocumentPath
  | channel (identifier : String)
  | message (channel identifier : String)
  deriving DecidableEq

structure Service where
  store : Store
  requests : List DocumentPath

def Service.empty : Service := ⟨Store.empty, []⟩

def deleteChannelFireStore (identifier : String) (s : Service) : Service :=
  { s with requests := s.requests ++ [.channel identifier] }

/-- One identifier serves as the channel's and as the message's. -/
def deleteMessageFireStore (identifier : String) (s : Service) : Service :=
  { s with requests := s.requests ++ [.message identifier identifier] }

def deleteChannelMessages (identifier : String) (s : Service) : Service :=
  (s.store.fetchMessages identifier).foldl (fun s message =>
    deleteMessageFireStore message { s with store := s.store.deleteMessageRow message }) s

def deleteChannel (identifier : String) (s : Service) : Service :=
  (s.store.fetchChannels identifier).foldl (fun s channel =>
    deleteChannelFireStore channel { s with store := s.store.deleteChannelRow channel }) s

/-- One document change of a channel snapshot: a removal acts at once, any
other change waits for the save at the end. The name is read first. -/
def walkChange (acc : Service × List ChannelModel) (document : DocumentChange) :
    Service × List ChannelModel :=
  match ChannelModel.ofDocument document with
  | none => acc
  | some model =>
    if document.type = .removed then
      (deleteChannel model.identifier (deleteChannelMessages model.identifier acc.1), acc.2)
    else (acc.1, acc.2 ++ [model])

/-- The listener of `updateChannels`; none stands for an error or no snapshot. -/
def updateChannels (snapshot : Option (List DocumentChange)) (s : Service) : Service :=
  match snapshot with
  | none => s
  | some documentChanges =>
    let walked := documentChanges.foldl walkChange (s, [])
    { walked.1 with store := walked.2.foldl Store.insertChannel walked.1.store }

/-- The listener of `updateMessages` for the channel captured when it was added.
The type of a change is never looked at. -/
def updateMessages (channel : ChannelModel) (snapshot : Option (List DocumentChange))
    (s : Service) : Service :=
  match snapshot with
  | none => s
  | some documentChanges =>
    { s with store :=
        s.store.insertMessages channel (documentChanges.filterMap MessageModel.ofDocument) }

/-- The fields that `createChannel` writes. -/
def createChannel (name : String) : Fields := Fields.ofList [("name", .string name)]

/-- The fields that `createMessage` writes. -/
def createMessage (senderId message : String) (now : Date) : Fields :=
  Fields.ofList [
    ("content", .string message),
    ("created", .timestamp (Timestamp.ofDate now)),
    ("senderId", .string senderId),
    ("senderName", .string "Nikita Kazantsev")]

@[simp] theorem deleteChannelMessages_channels (identifier : String) (s : Service) :
    (deleteChannelMessages identifier s).store.channels = s.store.channels := by
  unfold deleteChannelMessages Store.fetchMessages
  split <;> rfl

@[simp] theorem deleteChannelMessages_messages (identifier : String) (s : Service) :
    (deleteChannelMessages identifier s).store.messages =
      apply s.store.messages (.drop identifier) := by
  unfold deleteChannelMessages Store.fetchMessages
  split
  · rfl
  · rename_i h
    have hnone : s.store.messages identifier = none := by simpa using h
    exact (apply_drop_of_none _ hnone).symm

@[simp] theorem deleteChannel_channels (identifier : String) (s : Service) :
    (deleteChannel identifier s).store.channels =
      apply s.store.channels (.drop identifier) := by
  unfold deleteChannel Store.fetchChannels
  split
  · rfl
  · rename_i h
    have hnone : s.store.channels identifier = none := by simpa using h
    exact (apply_drop_of_none _ hnone).symm

/-- The links to the channel are cleared also when it has no row: then there are none. -/
theorem deleteChannel_messages (identifier : String) (s : Service) (m : String) :
    (deleteChannel identifier s).store.messages m =
      (s.store.messages m).map (Store.nullify identifier) := by
  unfold deleteChannel Store.fetchChannels
  split
  · rfl
  · rename_i h
    have hnone : s.store.channels identifier = none := by simpa using h
    change s.store.messages m = _
    cases hrow : s.store.messages m with
    | none => rfl
    | some row =>
      have hne : row.channel ≠ some identifier := by
        intro hc
        exact s.store.linked m row identifier hrow hc hnone
      rw [Option.map_some, Store.nullify_of_ne hne]

theorem deleteChannelMessages_requests (identifier : String) (s : Service) :
    (deleteChannelMessages identifier s).requests =
      s.requests ++ (s.store.fetchMessages identifier).map fun m => .message m m := by
  unfold deleteChannelMessages Store.fetchMessages
  split
  · rfl
  · exact (List.append_nil _).symm

theorem deleteChannel_requests (identifier : String) (s : Service) :
    (deleteChannel identifier s).requests =
      s.requests ++ (s.store.fetchChannels identifier).map .channel := by
  unfold deleteChannel Store.fetchChannels
  split
  · rfl
  · exact (List.append_nil _).symm

/-- What the channel listener makes of a change: nothing, a removal or a row. -/
def channelRead (document : DocumentChange) : Option (Option ChannelDb) :=
  (ChannelModel.ofDocument document).map fun model =>
    if document.type = .removed then none else some (ChannelDb.init model)

def channelLog (documentChanges : List DocumentChange) : List (Change String ChannelDb) :=
  documentChanges.filterMap fun document =>
    (channelRead document).map (Change.mk document.documentID)

/-- The order in which the listener acts: first the removals, then the rest. -/
def twoPhases (documentChanges : List DocumentChange) : List DocumentChange :=
  documentChanges.filter (fun document => document.type = .removed) ++
    documentChanges.filter (fun document => !decide (document.type = .removed))

theorem channelLog_append (left right : List DocumentChange) :
    channelLog (left ++ right) = channelLog left ++ channelLog right := List.filterMap_append

private theorem walked_channels (documentChanges : List DocumentChange) (s : Service)
    (channels : List ChannelModel) :
    (documentChanges.foldl walkChange (s, channels)).1.store.channels =
      replay s.store.channels
        (channelLog (documentChanges.filter fun document => document.type = .removed)) := by
  induction documentChanges generalizing s channels with
  | nil => rfl
  | cons document rest ih =>
    rw [List.foldl_cons, ih]
    cases hmodel : ChannelModel.ofDocument document with
    | none =>
      have hread : channelRead document = none := by simp [channelRead, hmodel]
      by_cases hr : document.type = .removed <;>
        simp [walkChange, hmodel, channelLog, hread, hr]
    | some model =>
      have hid := ChannelModel.identifier_of_ofDocument hmodel
      by_cases hr : document.type = .removed
      · simp [walkChange, hmodel, channelLog, channelRead, hr, hid, Change.drop]
      · simp [walkChange, hmodel, hr]

theorem walked_models (documentChanges : List DocumentChange) (s : Service)
    (channels : List ChannelModel) :
    (documentChanges.foldl walkChange (s, channels)).2 =
      channels ++ (documentChanges.filter fun document =>
        !decide (document.type = .removed)).filterMap ChannelModel.ofDocument := by
  induction documentChanges generalizing s channels with
  | nil => simp
  | cons document rest ih =>
    rw [List.foldl_cons, ih]
    cases hmodel : ChannelModel.ofDocument document <;>
      by_cases hr : document.type = .removed <;> simp [walkChange, hmodel, hr]

private theorem inserted_channels (models : List ChannelModel) (s : Store) :
    (models.foldl Store.insertChannel s).channels =
      replay s.channels
        (models.map fun model => .put model.identifier (ChannelDb.init model)) := by
  induction models generalizing s with
  | nil => rfl
  | cons model rest ih => rw [List.foldl_cons, ih]; rfl

private theorem saved_log (documentChanges : List DocumentChange)
    (h : ∀ document ∈ documentChanges, document.type ≠ .removed) :
    (documentChanges.filterMap ChannelModel.ofDocument).map
        (fun model => Change.put model.identifier (ChannelDb.init model)) =
      channelLog documentChanges := by
  induction documentChanges with
  | nil => rfl
  | cons document rest ih =>
    have hrest := ih fun d hd => h d (List.mem_cons_of_mem _ hd)
    have hr : document.type ≠ .removed := h document List.mem_cons_self
    cases hmodel : ChannelModel.ofDocument document with
    | none => simpa [channelLog, channelRead, hmodel] using hrest
    | some model =>
      have hid := ChannelModel.identifier_of_ofDocument hmodel
      simpa [channelLog, channelRead, hmodel, hr, hid, Change.put] using hrest

/-- A channel snapshot replays its removals and then its other changes. -/
theorem updateChannels_channels (documentChanges : List DocumentChange) (s : Service) :
    (updateChannels (some documentChanges) s).store.channels =
      replay s.store.channels (channelLog (twoPhases documentChanges)) := by
  change (List.foldl Store.insertChannel _ _).channels = _
  rw [inserted_channels, walked_channels, walked_models, List.nil_append, saved_log,
    twoPhases, channelLog_append, replay_append]
  intro document hd
  simpa using (List.mem_filter.mp hd).2

theorem twoPhases_perm (documentChanges : List DocumentChange) :
    (twoPhases documentChanges).Perm documentChanges :=
  List.filter_append_perm _ documentChanges

theorem channelLog_keys_nodup {documentChanges : List DocumentChange}
    (h : (documentChanges.map DocumentChange.documentID).Nodup) :
    ((channelLog documentChanges).map Change.key).Nodup := by
  have hkeys : ((channelLog documentChanges).map Change.key).Sublist
      (documentChanges.map DocumentChange.documentID) := by
    induction documentChanges with
    | nil => exact List.Sublist.refl _
    | cons document rest ih =>
      have hrest := ih (List.nodup_cons.mp h).2
      cases hread : channelRead document with
      | none => simpa [channelLog, hread] using hrest.cons document.documentID
      | some v => simpa [channelLog, hread] using hrest
  exact h.sublist hkeys

/-- When each document appears once, the two phases do not show. -/
theorem updateChannels_channels_of_nodup {documentChanges : List DocumentChange}
    (h : (documentChanges.map DocumentChange.documentID).Nodup) (s : Service) :
    (updateChannels (some documentChanges) s).store.channels =
      replay s.store.channels (channelLog documentChanges) := by
  rw [updateChannels_channels]
  have hperm := twoPhases_perm documentChanges
  apply replay_perm (hperm.filterMap _)
  exact channelLog_keys_nodup ((hperm.map _).nodup_iff.mpr h)

def messageLog (channel : String) (documentChanges : List DocumentChange) :
    List (Change String MessageDb) :=
  documentChanges.filterMap fun document =>
    ((MessageModel.ofDocument document).map fun model => some (MessageDb.init model channel)).map
      (Change.mk document.documentID)

/-- A message snapshot overwrites the row of the captured channel. -/
theorem updateMessages_channels (channel : ChannelModel) (documentChanges : List DocumentChange)
    (s : Service) : (updateMessages channel (some documentChanges) s).store.channels =
      apply s.store.channels (.put channel.identifier (ChannelDb.init channel)) := rfl

theorem updateMessages_messages (channel : ChannelModel) (documentChanges : List DocumentChange)
    (s : Service) : (updateMessages channel (some documentChanges) s).store.messages =
      replay s.store.messages (messageLog channel.identifier documentChanges) := by
  change replay s.store.messages (Store.messageLog channel.identifier _) = _
  congr 1
  induction documentChanges with
  | nil => rfl
  | cons document rest ih =>
    cases hmodel : MessageModel.ofDocument document with
    | none => simpa [messageLog, Store.messageLog, hmodel] using ih
    | some model =>
      have hid := MessageModel.identifier_of_ofDocument hmodel
      simpa [messageLog, Store.messageLog, hmodel, hid, Change.put] using ih

end TinkoffChat.FireStoreService

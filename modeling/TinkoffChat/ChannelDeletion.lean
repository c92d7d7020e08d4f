import TinkoffChat.ChatClient

/-!
Deleting a channel from the local store. The messages are fetched by their own
identifier, with the identifier of the channel as the key, so the channel's
messages are nullified instead of deleted unless one happens to bear the
channel's identifier, and a message of another channel may bear it as well.
-/
namespace TinkoffChat.ChannelDeletion

open ChangeLog Documents LocalStore FireStoreService ChatClient PartialRuns

/-- The two calls of the row action and of the removal branch. -/
def deleteChannelData (identifier : String) (s : Service) : Service :=
  deleteChannel identifier (deleteChannelMessages identifier s)

/-- No row of the channel and no message linked to it remain; every message
linked to another channel stays as it was. -/
def DeletesExactly (identifier : String) (s t : Store) : Prop :=
  t.channels identifier = none ∧
  (∀ m row, s.messages m = some row → row.channel = some identifier → t.messages m = none) ∧
  (∀ m row c, s.messages m = some row → row.channel = some c → c ≠ identifier →
    t.messages m = some row)

/-- The only message that may be linked to the channel is the one with the
channel's identifier, and that one, if there is one, is linked to no other channel. -/
def KeyedByChannel (identifier : String) (s : Store) : Prop :=
  (∀ m row, s.messages m = some row → row.channel = some identifier → m = identifier) ∧
  (∀ row c, s.messages identifier = some row → row.channel = some c → c = identifier)

@[simp] theorem deleteChannelData_channels (identifier : String) (s : Service) :
    (deleteChannelData identifier s).store.channels =
      apply s.store.channels (.drop identifier) := by
  rw [deleteChannelData, deleteChannel_channels, deleteChannelMessages_channels]

theorem deleteChannelData_messages_self (identifier : String) (s : Service) :
    (deleteChannelData identifier s).store.messages identifier = none := by
  rw [deleteChannelData, deleteChannel_messages, deleteChannelMessages_messages,
    apply_drop_self, Option.map_none]

/-- A message with another identifier is never deleted; at most it loses its channel. -/
theorem deleteChannelData_messages_of_ne {identifier m : String} (h : identifier ≠ m)
    (s : Service) : (deleteChannelData identifier s).store.messages m =
      (s.store.messages m).map (Store.nullify identifier) := by
  rw [deleteChannelData, deleteChannel_messages, deleteChannelMessages_messages,
    apply_drop_of_ne _ h]

/-- The channel's own messages are left without a channel. -/
theorem deleteChannelData_orphans {identifier m : String} (h : identifier ≠ m) {s : Service}
    {row : MessageDb} (hm : s.store.messages m = some row)
    (hc : row.channel = some identifier) :
    (deleteChannelData identifier s).store.messages m = some { row with channel := none } := by
  rw [deleteChannelData_messages_of_ne h, hm, Option.map_some, Store.nullify, if_pos hc]

/-- The deletion is exact for the stores in which a message identifier stands
for a channel, and for no others. -/
theorem deletesExactly_iff (identifier : String) (s : Service) :
    DeletesExactly identifier s.store (deleteChannelData identifier s).store ↔
      KeyedByChannel identifier s.store := by
  constructor
  · rintro ⟨-, hown, hother⟩
    constructor
    · intro m row hm hc
      by_contra hne
      have hgone := hown m row hm hc
      rw [deleteChannelData_orphans (Ne.symm hne) hm hc] at hgone
      exact Option.some_ne_none _ hgone
    · intro row c hm hc
      by_contra hne
      have hkept := hother identifier row c hm hc hne
      rw [deleteChannelData_messages_self] at hkept
      exact Option.some_ne_none _ hkept.symm
  · rintro ⟨hown, hother⟩
    refine ⟨?_, ?_, ?_⟩
    · rw [deleteChannelData_channels, apply_drop_self]
    · intro m row hm hc
      rw [hown m row hm hc]
      exact deleteChannelData_messages_self identifier s
    · intro m row c hm hc hne
      have hid : identifier ≠ m := by
        rintro rfl
        exact hne (hother row c hm hc)
      have hlink : row.channel ≠ some identifier := by
        rw [hc]
        exact fun h => hne (Option.some.inj h)
      rw [deleteChannelData_messages_of_ne hid, hm, Option.map_some, Store.nullify_of_ne hlink]

/-- A channel with one message, as the two listeners store them. -/
def helloRun : List Event := [
  .channelSnapshot (some [⟨.added, "c1", Fields.ofList [("name", .string "General")]⟩]),
  .openConversation "c1",
  .messageSnapshot 0 (some [⟨.added, "m1", createMessage "u1" "hello" 5⟩])]

/-- In a store reached by the listeners a message outlives its channel. -/
theorem not_deletesExactly :
    ¬ ∀ c : Client, Reachable step Client.empty c → ∀ identifier,
      DeletesExactly identifier c.service.store
        (deleteChannelData identifier c.service).store := by
  intro h
  obtain ⟨c, hrun⟩ : ∃ c, run step Client.empty helloRun = some c := ⟨_, rfl⟩
  have hlinked : c.service.store.messages "m1" =
      some ⟨"hello", 5, "u1", "Nikita Kazantsev", some "c1"⟩ := by
    obtain rfl := Option.some.inj hrun
    decide
  have hgone := (h c ⟨helloRun, hrun⟩ "c1").2.1 "m1" _ hlinked rfl
  rw [deleteChannelData_orphans (by decide) hlinked rfl] at hgone
  exact Option.some_ne_none _ hgone

/-- The document of the channel, or of a message linked to it. -/
def Addressed (identifier : String) (s : Store) : DocumentPath → Prop
  | .channel channel => channel = identifier
  | .message channel m => channel = identifier ∧
      ∃ row, s.messages m = some row ∧ row.channel = some identifier

/-- One request for each document of the channel, and none for any other. -/
def AddressesExactly (identifier : String) (s : Store) (issued : List DocumentPath) : Prop :=
  issued.Nodup ∧ ∀ path, path ∈ issued ↔ Addressed identifier s path

/-- The requests of the deletion. -/
def deletionRequests (identifier : String) (s : Service) : List DocumentPath :=
  (deleteChannelData identifier s).requests.drop s.requests.length

theorem deletionRequests_eq (identifier : String) (s : Service) :
    deletionRequests identifier s =
      (s.store.fetchMessages identifier).map (fun m => .message m m) ++
        (s.store.fetchChannels identifier).map .channel := by
  have hchannels : (deleteChannelMessages identifier s).store.fetchChannels identifier =
      s.store.fetchChannels identifier := by
    rw [Store.fetchChannels, deleteChannelMessages_channels, Store.fetchChannels]
  rw [deletionRequests, deleteChannelData, deleteChannel_requests,
    deleteChannelMessages_requests, hchannels, List.append_assoc, List.drop_left]

theorem message_mem_deletionRequests {identifier channel m : String} {s : Service} :
    .message channel m ∈ deletionRequests identifier s ↔
      channel = identifier ∧ m = identifier ∧ s.store.messages identifier ≠ none := by
  rw [deletionRequests_eq, Store.fetchMessages, ← Option.isSome_iff_ne_none]
  cases (s.store.messages identifier).isSome <;> simp

theorem channel_mem_deletionRequests {identifier channel : String} {s : Service} :
    .channel channel ∈ deletionRequests identifier s ↔
      channel = identifier ∧ s.store.channels identifier ≠ none := by
  rw [deletionRequests_eq, Store.fetchChannels, ← Option.isSome_iff_ne_none]
  cases (s.store.channels identifier).isSome <;> simp

theorem deletionRequests_nodup (identifier : String) (s : Service) :
    (deletionRequests identifier s).Nodup := by
  rw [deletionRequests_eq, Store.fetchMessages, Store.fetchChannels]
  cases (s.store.messages identifier).isSome <;>
    cases (s.store.channels identifier).isSome <;> simp

/-- The requests are right for the channels whose messages are just the one that bears
the channel's identifier, if there is one, and for no others. -/
theorem addressesExactly_iff {identifier : String} {s : Service}
    (hpresent : s.store.channels identifier ≠ none) :
    AddressesExactly identifier s.store (deletionRequests identifier s) ↔
      ∀ m row, s.store.messages m = some row →
        (row.channel = some identifier ↔ m = identifier) := by
  constructor
  · rintro ⟨-, hpaths⟩ m row hm
    have hpath := hpaths (.message identifier m)
    rw [message_mem_deletionRequests, and_iff_right rfl] at hpath
    constructor
    · intro hlinked
      exact (hpath.mpr ⟨rfl, row, hm, hlinked⟩).1
    · rintro rfl
      obtain ⟨-, row', hm', hlinked⟩ := hpath.mp ⟨rfl, hm ▸ Option.some_ne_none row⟩
      obtain rfl : row = row' := Option.some.inj (hm.symm.trans hm')
      exact hlinked
  · intro hkeyed
    refine ⟨deletionRequests_nodup identifier s, fun path => ?_⟩
    cases path with
    | channel channel => exact channel_mem_deletionRequests.trans (and_iff_left hpresent)
    | message channel m =>
      rw [message_mem_deletionRequests, Addressed, and_congr_right_iff]
      rintro rfl
      constructor
      · rintro ⟨rfl, hfound⟩
        obtain ⟨row, hm⟩ := Option.ne_none_iff_exists'.mp hfound
        exact ⟨row, hm, (hkeyed m row hm).mpr rfl⟩
      · rintro ⟨row, hm, hlinked⟩
        obtain rfl := (hkeyed m row hm).mp hlinked
        exact ⟨rfl, hm ▸ Option.some_ne_none row⟩

/-- Two channels with a message each; the message of the first bears the channel's identifier. -/
def keyedMessage : Service :=
  ⟨(Store.empty.insertMessages ⟨"c1", "General", none, none⟩
      [⟨"c1", "hello", 5, "u1", "Nikita Kazantsev"⟩]).insertMessages ⟨"c2", "News", none, none⟩
      [⟨"m2", "hi", 6, "u2", "Nikita Kazantsev"⟩], []⟩

theorem keyedMessage_messages (m : String) :
    keyedMessage.store.messages m = if "m2" = m then
      some ⟨"hi", 6, "u2", "Nikita Kazantsev", some "c2"⟩ else
        if "c1" = m then some ⟨"hello", 5, "u1", "Nikita Kazantsev", some "c1"⟩ else none := by
  split_ifs with hm hc
  · subst hm
    rfl
  · subst hc
    rfl
  · exact (apply_put_of_ne _ _ hm).trans (apply_put_of_ne _ _ hc)

theorem addressesExactly_keyedMessage :
    AddressesExactly "c1" keyedMessage.store (deletionRequests "c1" keyedMessage) := by
  apply (addressesExactly_iff (by decide)).mpr
  intro m row hm
  rw [keyedMessage_messages] at hm
  split_ifs at hm with hnews hgeneral
  · obtain rfl := hnews
    obtain rfl := Option.some.inj hm
    decide
  · obtain rfl := hgeneral
    obtain rfl := Option.some.inj hm
    decide

/-- No request is issued for a message of the channel. -/
theorem not_addressesExactly :
    ¬ ∀ c : Client, Reachable step Client.empty c → ∀ identifier,
      c.service.store.channels identifier ≠ none →
        AddressesExactly identifier c.service.store (deletionRequests identifier c.service) := by
  intro h
  obtain ⟨c, hrun⟩ : ∃ c, run step Client.empty helloRun = some c := ⟨_, rfl⟩
  obtain ⟨row, hlinked, hchannel, hpresent⟩ : ∃ row, c.service.store.messages "m1" = some row ∧
      row.channel = some "c1" ∧ c.service.store.channels "c1" ≠ none := by
    obtain rfl := Option.some.inj hrun
    exact ⟨_, rfl, rfl, Option.some_ne_none _⟩
  have hpath := (h c ⟨helloRun, hrun⟩ "c1" hpresent).2 (.message "c1" "m1")
  obtain ⟨-, heq, -⟩ := message_mem_deletionRequests.mp (hpath.mpr ⟨rfl, row, hlinked, hchannel⟩)
  exact absurd heq (by decide)

end TinkoffChat.ChannelDeletion

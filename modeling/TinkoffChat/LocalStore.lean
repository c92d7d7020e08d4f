import TinkoffChat.ChangeLog
import TinkoffChat.Documents

/-!
The Core Data tables. The uniqueness constraint on the identifiers makes each
table a partial function of the identifier, and saving an object whose
identifier is taken overwrites the attributes of the stored row. A message
is linked to at most one channel, and never to a channel that has no row;
deleting a channel nullifies the links of its messages.
-/
namespace TinkoffChat.LocalStore

open ChangeLog Documents

/-- The attributes of `Channel_db` besides its identifier. -/
structure ChannelDb where
  name : String
  lastMessage : Option String
  lastActivity : Option Date
  deriving DecidableEq

/-- The attributes of `Message_db` besides its identifier, and its channel. -/
structure MessageDb where
  content : String
  created : Date
  senderId : String
  senderName : String
  channel : Option String
  deriving DecidableEq

/-- `Channel_db(channel:in:)` -/
def ChannelDb.init (channel : ChannelModel) : ChannelDb :=
  ⟨channel.name, channel.lastMessage, channel.lastActivity⟩

/-- `Message_db(message:in:)`, with `message.channel` then set to the given channel. -/
def MessageDb.init (message : MessageModel) (channel : String) : MessageDb :=
  ⟨message.content, message.created, message.senderId, message.senderName, some channel⟩

/-- The channel a row describes, as the conversation list hands it to a new screen. -/
def ChannelDb.model (row : ChannelDb) (identifier : String) : ChannelModel :=
  ⟨identifier, row.name, row.lastMessage, row.lastActivity⟩

@[ext] structure Store where
  channels : Table String ChannelDb
  messages : Table String MessageDb
  linked : ∀ m row c, messages m = some row → row.channel = some c → channels c ≠ none

namespace Store

def empty : Store where
  channels := fun _ => none
  messages := fun _ => none
  linked := by simp

/-- Every inserted channel overwrites the row with its identifier. -/
def insertChannel (s : Store) (channel : ChannelModel) : Store where
  channels := apply s.channels (.put channel.identifier (ChannelDb.init channel))
  messages := s.messages
  linked := by
    intro m row c hm hc
    by_cases h : channel.identifier = c
    · subst h
      rw [apply_put_self]
      exact Option.some_ne_none _
    · rw [apply_put_of_ne _ _ h]
      exact s.linked m row c hm hc

/-- The changes that the rows of the given messages make to the message table. -/
def messageLog (channel : String) (messages : List MessageModel) :
    List (Change String MessageDb) :=
  messages.map fun message => .put message.identifier (MessageDb.init message channel)

theorem linked_replay {channels : Table String ChannelDb} {messages : Table String MessageDb}
    (hlinked : ∀ m row c, messages m = some row → row.channel = some c → channels c ≠ none)
    {channel : String} (hchannel : channels channel ≠ none) (models : List MessageModel) :
    ∀ m row c, replay messages (messageLog channel models) m = some row →
      row.channel = some c → channels c ≠ none := by
  induction models generalizing messages with
  | nil => exact hlinked
  | cons model models ih =>
    apply ih
    intro m row c hm hc
    by_cases h : model.identifier = m
    · subst h
      obtain rfl : row = MessageDb.init model channel :=
        Option.some.inj (hm.symm.trans (apply_put_self ..))
      obtain rfl : channel = c := Option.some.inj hc
      exact hchannel
    · exact hlinked m row c ((apply_put_of_ne messages _ h).symm.trans hm) hc

/-- The block of the message listener: the captured channel is inserted, then
each message, linked to it. -/
def insertMessages (s : Store) (channel : ChannelModel) (messages : List MessageModel) : Store where
  channels := (s.insertChannel channel).channels
  messages := replay s.messages (messageLog channel.identifier messages)
  linked := by
    apply linked_replay (s.insertChannel channel).linked
    exact ne_of_eq_of_ne (apply_put_self ..) (Option.some_ne_none _)

/-- The identifiers of the rows that `Message_db.fetchRequest(identifier:)` finds. -/
def fetchMessages (s : Store) (identifier : String) : List String :=
  if (s.messages identifier).isSome then [identifier] else []

/-- The identifiers of the rows that `Channel_db.fetchRequest(identifier:)` finds. -/
def fetchChannels (s : Store) (identifier : String) : List String :=
  if (s.channels identifier).isSome then [identifier] else []

theorem mem_fetchChannels {s : Store} {identifier c : String}
    (h : c ∈ s.fetchChannels identifier) : c = identifier := by
  unfold fetchChannels at h
  split at h
  · exact List.mem_singleton.mp h
  · cases h

def deleteMessageRow (s : Store) (identifier : String) : Store where
  channels := s.channels
  messages := apply s.messages (.drop identifier)
  linked := by
    intro m row c hm hc
    by_cases h : identifier = m
    · subst h
      exact absurd (hm.symm.trans (apply_drop_self ..)) (Option.some_ne_none _)
    · exact s.linked m row c ((apply_drop_of_ne s.messages h).symm.trans hm) hc

/-- The Nullify rule: a message of the deleted channel stays, without a channel. -/
def nullify (channel : String) (row : MessageDb) : MessageDb :=
  if row.channel = some channel then { row with channel := none } else row

theorem nullify_channel_ne (channel : String) (row : MessageDb) :
    (nullify channel row).channel ≠ some channel := by
  unfold nullify
  split
  · simp
  · assumption

theorem nullify_of_ne {channel : String} {row : MessageDb} (h : row.channel ≠ some channel) :
    nullify channel row = row := if_neg h

def deleteChannelRow (s : Store) (identifier : String) : Store where
  channels := apply s.channels (.drop identifier)
  messages := fun m => (s.messages m).map (nullify identifier)
  linked := by
    intro m row c hm hc
    obtain ⟨row', hm', rfl⟩ := Option.map_eq_some_iff.mp hm
    have hne : identifier ≠ c := by
      rintro rfl
      exact nullify_channel_ne identifier row' hc
    rw [apply_drop_of_ne _ hne]
    refine s.linked m row' c hm' ?_
    by_cases h : row'.channel = some identifier
    · simp [nullify, h] at hc
    · rwa [nullify_of_ne h] at hc

@[simp] theorem insertChannel_channels (s : Store) (channel : ChannelModel) :
    (s.insertChannel channel).channels =
      apply s.channels (.put channel.identifier (ChannelDb.init channel)) := rfl

@[simp] theorem insertChannel_messages (s : Store) (channel : ChannelModel) :
    (s.insertChannel channel).messages = s.messages := rfl

@[simp] theorem insertMessages_channels (s : Store) (channel : ChannelModel)
    (messages : List MessageModel) : (s.insertMessages channel messages).channels =
      apply s.channels (.put channel.identifier (ChannelDb.init channel)) := rfl

@[simp] theorem insertMessages_messages (s : Store) (channel : ChannelModel)
    (messages : List MessageModel) : (s.insertMessages channel messages).messages =
      replay s.messages (messageLog channel.identifier messages) := rfl

@[simp] theorem deleteMessageRow_channels (s : Store) (identifier : String) :
    (s.deleteMessageRow identifier).channels = s.channels := rfl

@[simp] theorem deleteMessageRow_messages (s : Store) (identifier : String) :
    (s.deleteMessageRow identifier).messages = apply s.messages (.drop identifier) := rfl

@[simp] theorem deleteChannelRow_channels (s : Store) (identifier : String) :
    (s.deleteChannelRow identifier).channels = apply s.channels (.drop identifier) := rfl

@[simp] theorem deleteChannelRow_messages (s : Store) (identifier m : String) :
    (s.deleteChannelRow identifier).messages m = (s.messages m).map (nullify identifier) := rfl

end Store

end TinkoffChat.LocalStore

import TinkoffChat.FireStoreService
import TinkoffChat.PartialRuns

/-!
One client's local data over a whole run. Opening a conversation screen
captures the channel from the row then shown and adds a message listener that
keeps the captured value; no listener is ever removed. Channel snapshots,
message snapshots and the row action of the conversation list come in any order.
-/
namespace TinkoffChat.ChatClient

open ChangeLog Documents LocalStore FireStoreService PartialRuns

structure Client where
  service : Service
  listeners : List ChannelModel

def Client.empty : Client := ⟨Service.empty, []⟩

inductive Event
  | channelSnapshot (snapshot : Option (List DocumentChange))
  | openConversation (identifier : String)
  | messageSnapshot (listener : ℕ) (snapshot : Option (List DocumentChange))
  | deleteRow (identifier : String)

/-- A screen opens on a row that is there, and the row action needs one too. -/
def step (c : Client) : Event → Option Client
  | .channelSnapshot snapshot => some { c with service := updateChannels snapshot c.service }
  | .openConversation identifier =>
    (c.service.store.channels identifier).map fun row =>
      { c with listeners := c.listeners ++ [row.model identifier] }
  | .messageSnapshot listener snapshot =>
    c.listeners[listener]?.map fun channel =>
      { c with service := updateMessages channel snapshot c.service }
  | .deleteRow identifier =>
    (c.service.store.channels identifier).map fun _ =>
      { c with service := deleteChannel identifier (deleteChannelMessages identifier c.service) }

/-- The events that handle channels alone, on a service of their own. -/
def handleChannels (s : Service) : Event → Service
  | .channelSnapshot snapshot => updateChannels snapshot s
  | .deleteRow identifier => deleteChannel identifier (deleteChannelMessages identifier s)
  | .openConversation _ => s
  | .messageSnapshot _ _ => s

def channelsAlone (s : Service) (es : List Event) : Service := es.foldl handleChannels s

/-- The channel table after a channel snapshot depends on nothing else. -/
theorem updateChannels_channels_congr {s t : Service}
    (h : s.store.channels = t.store.channels) (snapshot : Option (List DocumentChange)) :
    (updateChannels snapshot s).store.channels = (updateChannels snapshot t).store.channels := by
  cases snapshot with
  | none => exact h
  | some documentChanges => rw [updateChannels_channels, updateChannels_channels, h]

end TinkoffChat.ChatClient

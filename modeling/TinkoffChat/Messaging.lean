import TinkoffChat.FireStoreService
import TinkoffChat.PartialRuns

/-!
Users sending messages and clients receiving them. An accepted tap on Send
puts a block on a concurrent queue, so the pending blocks run in any order; the
block reads the clock of its device, which may show any time, and adds a document
under an identifier never used before. A delivery hands any of a channel's
documents, as added changes, to any listener of any user. The taps, the documents
and the deliveries are logged.
-/
namespace TinkoffChat.Messaging

open ChangeLog Documents LocalStore FireStoreService PartialRuns

variable {User : Type*}

/-- A tap on Send that passed the check for blank texts; taps are numbered in order. -/
structure Tap (User : Type*) where
  user : User
  identifier : String
  message : String
  serial : ℕ
  deriving DecidableEq

/-- A document of `channels/c/messages`, with the tap that led to it and the
reading of the sender's clock in its created field. -/
structure Sent (User : Type*) where
  tap : Tap User
  documentID : String
  created : Date
  deriving DecidableEq

def Sent.data (senderId : User → String) (d : Sent User) : Fields :=
  createMessage (senderId d.tap.user) d.tap.message d.created

/-- Firestore returns the fields as they were written. -/
def Sent.added (senderId : User → String) (d : Sent User) : DocumentChange :=
  ⟨.added, d.documentID, d.data senderId⟩

structure World (User : Type*) where
  tapped : List (Tap User)
  pending : List (Tap User)
  documents : List (Sent User)
  service : User → Service
  delivered : User → List (Sent User)

def World.init : World User where
  tapped := []
  pending := []
  documents := []
  service := fun _ => Service.empty
  delivered := fun _ => []

inductive Event (User : Type*)
  | tap (user : User) (identifier message : String)
  | runBlock (index : ℕ) (now : Date) (documentID : String)
  | deliver (user : User) (channel : ChannelModel) (documentIDs : List String)

/-- The documents of a listener's collection among the given ones, in the order of their
arrival; a snapshot may list them in another, but no two have the same identifier. -/
def World.wanted (w : World User) (identifier : String) (documentIDs : List String) :
    List (Sent User) :=
  w.documents.filter fun d => d.tap.identifier = identifier ∧ d.documentID ∈ documentIDs

/-- `sendMessageButtonTapped`: a blank text is dropped, any other is put on the queue. -/
def sendMessageButtonTapped (w : World User) (user : User) (identifier message : String) :
    World User :=
  if (trimmingCharacters message).isEmpty then w
  else
    { w with
      tapped := w.tapped ++ [⟨user, identifier, message, w.tapped.length⟩]
      pending := w.pending ++ [⟨user, identifier, message, w.tapped.length⟩] }

/-- The block reads the clock, and the new identifier is fresh. -/
def runBlock (w : World User) (index : ℕ) (now : Date) (documentID : String) :
    Option (World User) :=
  w.pending[index]?.bind fun t =>
    if documentID ∉ w.documents.map Sent.documentID then
      some { w with
        pending := w.pending.eraseIdx index
        documents := w.documents ++ [⟨t, documentID, now⟩] }
    else none

def deliver [DecidableEq User] (senderId : User → String) (w : World User) (user : User)
    (channel : ChannelModel) (documentIDs : List String) : World User :=
  { w with
    service := Function.update w.service user (updateMessages channel
      (some ((w.wanted channel.identifier documentIDs).map (Sent.added senderId)))
      (w.service user))
    delivered := Function.update w.delivered user
      (w.delivered user ++ w.wanted channel.identifier documentIDs) }

def step [DecidableEq User] (senderId : User → String) (w : World User) :
    Event User → Option (World User)
  | .tap user identifier message => some (sendMessageButtonTapped w user identifier message)
  | .runBlock index now documentID => runBlock w index now documentID
  | .deliver user channel documentIDs => some (deliver senderId w user channel documentIDs)

/-- The row that a document's fields should become. -/
def rowOf (senderId : User → String) (d : Sent User) : MessageDb where
  content := d.tap.message
  created := d.created
  senderId := senderId d.tap.user
  senderName := "Nikita Kazantsev"
  channel := some d.tap.identifier

/-- The table of the user's client holds one row for each document delivered to
it, with the fields written and the channel it was sent to, and no other row. -/
def HoldsDelivered (senderId : User → String) (w : World User) (user : User) : Prop :=
  (∀ d ∈ w.delivered user,
    d ∈ w.documents ∧ (w.service user).store.messages d.documentID = some (rowOf senderId d)) ∧
  (∀ m row, (w.service user).store.messages m = some row →
    ∃! d, d ∈ w.delivered user ∧ d.documentID = m)

/-- What the sender writes passes the receiver's guards whenever it passed the sender's check. -/
theorem ofDocument_added (senderId : User → String) (d : Sent User)
    (h : (trimmingCharacters d.tap.message).isEmpty = false) :
    MessageModel.ofDocument (d.added senderId) =
      some ⟨d.documentID, d.tap.message, d.created, senderId d.tap.user, "Nikita Kazantsev"⟩ := by
  have hcontent : (d.data senderId).string "content" = some d.tap.message := rfl
  have hcreated : (d.data senderId).timestamp "created" =
      some (Timestamp.ofDate d.created) := rfl
  have hsender : (d.data senderId).string "senderId" = some (senderId d.tap.user) := rfl
  have hname : (d.data senderId).string "senderName" = some "Nikita Kazantsev" := rfl
  have htext : trimmingCharacters d.tap.message ≠ "" := by simpa using h
  simp [MessageModel.ofDocument, Sent.added, hcontent, hcreated, hsender, hname, guard, htext]

theorem messageLog_added (senderId : User → String) (identifier : String)
    (docs : List (Sent User))
    (h : ∀ d ∈ docs, (trimmingCharacters d.tap.message).isEmpty = false ∧
      d.tap.identifier = identifier) :
    messageLog identifier (docs.map (Sent.added senderId)) =
      docs.map fun d => .put d.documentID (rowOf senderId d) := by
  induction docs with
  | nil => rfl
  | cons d docs ih =>
    obtain ⟨htext, hid⟩ := h d List.mem_cons_self
    have hrest := ih fun d hd => h d (List.mem_cons_of_mem _ hd)
    have hrow : MessageDb.init ⟨d.documentID, d.tap.message, d.created, senderId d.tap.user,
        "Nikita Kazantsev"⟩ identifier = rowOf senderId d := by
      rw [← hid]
      rfl
    simp only [messageLog, List.map_cons, List.filterMap_cons, ofDocument_added senderId d htext,
      Option.map_some, hrow] at hrest ⊢
    rw [hrest]
    rfl

/-- What holds in every state: identifiers are never reused, blank texts never
travel, and each table is described by what was delivered to it. -/
structure Invariant (senderId : User → String) (w : World User) : Prop where
  documentIDs_nodup : (w.documents.map Sent.documentID).Nodup
  pending_text : ∀ t ∈ w.pending, (trimmingCharacters t.message).isEmpty = false
  document_text : ∀ d ∈ w.documents, (trimmingCharacters d.tap.message).isEmpty = false
  delivered_sent : ∀ user, ∀ d ∈ w.delivered user, d ∈ w.documents
  delivered_row : ∀ user, ∀ d ∈ w.delivered user,
    (w.service user).store.messages d.documentID = some (rowOf senderId d)
  row_delivered : ∀ user m row, (w.service user).store.messages m = some row →
    ∃ d ∈ w.delivered user, d.documentID = m

theorem init_invariant (senderId : User → String) : Invariant senderId World.init := by
  constructor <;> simp [World.init, Service.empty, Store.empty]

theorem tapped_invariant {senderId : User → String} {w : World User}
    (hw : Invariant senderId w) (user : User) (identifier message : String) :
    Invariant senderId (sendMessageButtonTapped w user identifier message) := by
  unfold sendMessageButtonTapped
  split
  · exact hw
  · rename_i htext
    refine { hw with pending_text := ?_ }
    intro t ht
    rcases List.mem_append.mp ht with hold | hnew
    · exact hw.pending_text t hold
    · obtain rfl := List.mem_singleton.mp hnew
      simpa using htext

theorem runBlock_eq_some {w v : World User} {index : ℕ} {now : Date} {documentID : String} :
    runBlock w index now documentID = some v ↔
      ∃ t, w.pending[index]? = some t ∧ documentID ∉ w.documents.map Sent.documentID ∧
        v = { w with
          pending := w.pending.eraseIdx index
          documents := w.documents ++ [⟨t, documentID, now⟩] } := by
  rw [runBlock, Option.bind_eq_some_iff]
  constructor
  · rintro ⟨t, ht, hv⟩
    split at hv
    · rename_i hfresh
      exact ⟨t, ht, hfresh, (Option.some.inj hv).symm⟩
    · contradiction
  · rintro ⟨t, ht, hfresh, rfl⟩
    exact ⟨t, ht, if_pos hfresh⟩

theorem runBlock_invariant {senderId : User → String} {w v : World User} {index : ℕ}
    {now : Date} {documentID : String} (hw : Invariant senderId w)
    (h : runBlock w index now documentID = some v) : Invariant senderId v := by
  obtain ⟨t, ht, hfresh, rfl⟩ := runBlock_eq_some.mp h
  constructor
  · rw [List.map_append, List.nodup_append]
    refine ⟨hw.documentIDs_nodup, List.nodup_singleton _, ?_⟩
    intro m hm m' hm'
    obtain rfl := List.mem_singleton.mp hm'
    rintro rfl
    exact hfresh hm
  · intro t' ht'
    exact hw.pending_text t' (List.mem_of_mem_eraseIdx ht')
  · intro d hd
    rcases List.mem_append.mp hd with hold | hnew
    · exact hw.document_text d hold
    · obtain rfl := List.mem_singleton.mp hnew
      exact hw.pending_text t (List.mem_of_getElem? ht)
  · intro user d hd
    exact List.mem_append_left _ (hw.delivered_sent user d hd)
  · exact hw.delivered_row
  · exact hw.row_delivered

theorem mem_wanted {w : World User} {identifier : String} {documentIDs : List String}
    {d : Sent User} (h : d ∈ w.wanted identifier documentIDs) :
    d ∈ w.documents ∧ d.tap.identifier = identifier := by
  obtain ⟨hd, hc⟩ := List.mem_filter.mp h
  exact ⟨hd, (of_decide_eq_true hc).1⟩

variable [DecidableEq User]

/-- A delivery puts the rows of the delivered documents and leaves the others. -/
theorem deliver_messages {senderId : User → String} {w : World User}
    (hw : Invariant senderId w) (user : User) (channel : ChannelModel)
    (documentIDs : List String) :
    ((deliver senderId w user channel documentIDs).service user).store.messages =
      replay (w.service user).store.messages
        ((w.wanted channel.identifier documentIDs).map fun d =>
          .put d.documentID (rowOf senderId d)) := by
  have hservice : (deliver senderId w user channel documentIDs).service user =
      updateMessages channel (some ((w.wanted channel.identifier documentIDs).map
        (Sent.added senderId))) (w.service user) := Function.update_self ..
  rw [hservice, updateMessages_messages, messageLog_added]
  intro d hd
  obtain ⟨hsent, hid⟩ := mem_wanted hd
  exact ⟨hw.document_text d hsent, hid⟩

theorem deliver_invariant {senderId : User → String} {w : World User}
    (hw : Invariant senderId w) (user : User) (channel : ChannelModel)
    (documentIDs : List String) :
    Invariant senderId (deliver senderId w user channel documentIDs) := by
  have hmessages := deliver_messages hw user channel documentIDs
  have hsame : ∀ d ∈ w.documents, ∀ d' ∈ w.documents, d'.documentID = d.documentID → d' = d := by
    intro d hd d' hd' hid
    exact List.inj_on_of_nodup_map hw.documentIDs_nodup hd' hd hid
  have hother : ∀ v, v ≠ user →
      (deliver senderId w user channel documentIDs).service v = w.service v ∧
      (deliver senderId w user channel documentIDs).delivered v = w.delivered v := by
    intro v hv
    exact ⟨Function.update_of_ne hv _ _, Function.update_of_ne hv _ _⟩
  have hself : (deliver senderId w user channel documentIDs).delivered user =
      w.delivered user ++ w.wanted channel.identifier documentIDs := Function.update_self ..
  refine { hw with delivered_sent := ?_, delivered_row := ?_, row_delivered := ?_ }
  · intro v d hd
    by_cases hv : v = user
    · subst hv
      rw [hself] at hd
      rcases List.mem_append.mp hd with hold | hnew
      · exact hw.delivered_sent v d hold
      · exact (mem_wanted hnew).1
    · rw [(hother v hv).2] at hd
      exact hw.delivered_sent v d hd
  · intro v d hd
    by_cases hv : v = user
    · subst hv
      rw [hself] at hd
      have hsent : d ∈ w.documents := by
        rcases List.mem_append.mp hd with hold | hnew
        · exact hw.delivered_sent v d hold
        · exact (mem_wanted hnew).1
      rw [hmessages]
      -- a document delivered again overwrites its row with the same fields
      by_cases hnew : d ∈ w.wanted channel.identifier documentIDs
      · apply replay_of_forall_value
        · intro c hc hkey
          obtain ⟨d', hd', rfl⟩ := List.mem_map.mp hc
          obtain rfl := hsame d hsent d' (mem_wanted hd').1 hkey
          rfl
        · exact ⟨_, List.mem_map_of_mem hnew, rfl⟩
      · have hold := (List.mem_append.mp hd).resolve_right hnew
        rw [replay_of_not_mem]
        · exact hw.delivered_row v d hold
        · intro c hc hkey
          obtain ⟨d', hd', rfl⟩ := List.mem_map.mp hc
          obtain rfl := hsame d hsent d' (mem_wanted hd').1 hkey
          exact hnew hd'
    · rw [(hother v hv).2] at hd
      rw [(hother v hv).1]
      exact hw.delivered_row v d hd
  · intro v m row hrow
    by_cases hv : v = user
    · subst hv
      rw [hself]
      rw [hmessages] at hrow
      by_cases hnew : ∃ d ∈ w.wanted channel.identifier documentIDs, d.documentID = m
      · obtain ⟨d, hd, hid⟩ := hnew
        exact ⟨d, List.mem_append_right _ hd, hid⟩
      · rw [replay_of_not_mem] at hrow
        · obtain ⟨d, hd, hid⟩ := hw.row_delivered v m row hrow
          exact ⟨d, List.mem_append_left _ hd, hid⟩
        · intro c hc hkey
          obtain ⟨d, hd, rfl⟩ := List.mem_map.mp hc
          exact hnew ⟨d, hd, hkey⟩
    · rw [(hother v hv).2]
      rw [(hother v hv).1] at hrow
      exact hw.row_delivered v m row hrow

theorem step_invariant {senderId : User → String} {w v : World User} {e : Event User}
    (hw : Invariant senderId w) (h : step senderId w e = some v) : Invariant senderId v := by
  cases e with
  | tap user identifier message =>
    obtain rfl := Option.some.inj h
    exact tapped_invariant hw user identifier message
  | runBlock index now documentID => exact runBlock_invariant hw h
  | deliver user channel documentIDs =>
    obtain rfl := Option.some.inj h
    exact deliver_invariant hw user channel documentIDs

/-- One message sent by one user and delivered twice to another. -/
def helloRun : List (Event ℕ) := [
  .tap 0 "c1" "hello",
  .runBlock 0 7 "m1",
  .deliver 1 ⟨"c1", "General", none, none⟩ ["m1"],
  .deliver 1 ⟨"c1", "Main", none, none⟩ ["m1"]]

end TinkoffChat.Messaging

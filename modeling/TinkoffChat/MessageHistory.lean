import TinkoffChat.ChannelRelaunches
import TinkoffChat.Messaging
import TinkoffChat.SnapshotPhases

/-!
Messages in a world whose channels come and go. Channels are created and deleted by the
clients as before, a client being shown its own such writes early or late, and between these
steps messages are sent, and handed to the listeners that conversation screens have added.
The identifiers of channels and messages are drawn from one pool. The deletion of a channel
looks for messages under the channel's own identifier, so it reaches none.
-/
namespace TinkoffChat.MessageHistory

open ChangeLog TableVersions Documents LocalStore FireStoreService PartialRuns SnapshotPhases
open ChannelDeletion (deleteChannelData deletionRequests message_mem_deletionRequests)
open Messaging (Tap Sent rowOf)

variable {User : Type*}

structure World (User : Type*) where
  sync : ChannelWorld.World User
  documents : List (Sent User)

def World.init : World User := ⟨.init, []⟩

/-- The steps with the channels, the block of an accepted tap on Send, and a delivery of
some documents to the listener of a conversation screen. -/
inductive Event (User : Type*)
  | sync (event : ChannelRelaunches.Event User)
  | createMessage (t : Tap User) (now : Date) (documentID : String)
  | deliver (user : User) (listener : ℕ) (documentIDs : List String)

/-- The documents of a listener's collection among the given ones. -/
def World.wanted (w : World User) (identifier : String) (documentIDs : List String) :
    List (Sent User) :=
  w.documents.filter fun d => d.tap.identifier = identifier ∧ d.documentID ∈ documentIDs

/-- What a delete request takes from the messages. -/
def World.perform (w : World User) : DocumentPath → World User
  | .channel _ => w
  | .message identifier documentID => { w with
      documents := w.documents.filter fun d =>
        ¬ (d.tap.identifier = identifier ∧ d.documentID = documentID) }

/-- Message snapshots are deliveries, and a request may name a message. -/
def step [DecidableEq User] (senderId : User → String) (w : World User) :
    Event User → Option (World User)
  | .sync (.sync (.act _ (.messageSnapshot _ _))) => none
  | .sync (.sync (.requestArrives user index)) =>
    (w.sync.client user).service.requests[index]?.bind fun path =>
      (ChannelWorld.step w.sync (.requestArrives user index)).map fun sync =>
        { w with sync }.perform path
  | .sync event => (ChannelRelaunches.step w.sync event).map fun sync => { w with sync }
  | .createMessage t now documentID =>
    if (trimmingCharacters t.message).isEmpty = false ∧ documentID ∉ w.sync.used then
      some {
        sync := { w.sync with used := w.sync.used ++ [documentID] }
        documents := w.documents ++ [⟨t, documentID, now⟩] }
    else none
  | .deliver user listener documentIDs =>
    (w.sync.client user).listeners[listener]?.bind fun channel =>
      (ChannelWorld.step w.sync (.act user (.messageSnapshot listener
        (some ((w.wanted channel.identifier documentIDs).map (Sent.added senderId)))))).map
          fun sync => { w with sync }

/-- The row without its links to the channels. -/
def unlink (removed : List String) (row : MessageDb) : MessageDb :=
  removed.foldl (fun row c => Store.nullify c row) row

/-- The row without its channel. -/
def unlinked (row : MessageDb) : MessageDb := { row with channel := none }

/-- The client drops the channel: by its row action, or because it was shown the document
and is not any more. -/
def Drops [DecidableEq User] (user : User) (identifier : String) (w : ChannelWorld.World User) :
    ChannelRelaunches.Event User → Prop
  | .sync (.deliver v _ named) => v = user ∧
      w.shown user identifier ≠ none ∧ w.showing user named identifier = none
  | .sync (.act v (.deleteRow other)) => v = user ∧ other = identifier
  | _ => False

section Rows

variable {removed : List String} {row : MessageDb} {identifier m : String} {s : Service}

theorem nullify_channel_eq_some (c : String) :
    (Store.nullify c row).channel = some identifier ↔
      row.channel = some identifier ∧ identifier ≠ c := by
  by_cases hc : row.channel = some c
  · rw [Store.nullify, if_pos hc, hc]
    refine iff_of_false (nomatch ·) ?_
    rintro ⟨heq, hne⟩
    exact hne (Option.some.inj heq).symm
  · rw [Store.nullify_of_ne hc]
    refine ⟨fun h => ⟨h, ?_⟩, And.left⟩
    rintro rfl
    exact hc h

theorem unlinked_nullify (c : String) : unlinked (Store.nullify c row) = unlinked row := by
  unfold Store.nullify
  split <;> rfl

theorem unlink_channel_eq_some : (unlink removed row).channel = some identifier ↔
    row.channel = some identifier ∧ identifier ∉ removed := by
  induction removed generalizing row with
  | nil => simp [unlink]
  | cons c removed ih =>
    change (unlink removed (Store.nullify c row)).channel = some identifier ↔ _
    rw [ih, nullify_channel_eq_some, List.mem_cons, not_or, and_assoc]

theorem unlinked_unlink : unlinked (unlink removed row) = unlinked row := by
  induction removed generalizing row with
  | nil => rfl
  | cons c removed ih =>
    change unlinked (unlink removed (Store.nullify c row)) = _
    rw [ih, unlinked_nullify]

/-- The changes handled in their order unlink a message that bears none of the removed
channels' identifiers. -/
theorem handleInOrder_messages {documents : List DocumentChange}
    (hm : ∀ document ∈ documents, removedBy document ≠ some m) :
    (handleInOrder documents s).store.messages m =
      (s.store.messages m).map (unlink (documents.filterMap removedBy)) := by
  induction documents generalizing s with
  | nil => exact Option.map_id'.symm
  | cons document documents ih =>
    change (handleInOrder documents (handleChange s document)).store.messages m = _
    rw [ih fun d hd => hm d (List.mem_cons_of_mem _ hd), handleChange_messages]
    cases hremoved : removedBy document with
    | none => simp [hremoved]
    | some c =>
      have hne : c ≠ m := by
        rintro rfl
        exact hm document List.mem_cons_self hremoved
      rw [List.filterMap_cons_some hremoved, Option.elim_some, dropChannel, apply_drop_of_ne _ hne,
        Option.map_map]
      rfl

theorem handleChange_none (document : DocumentChange) (hm : s.store.messages m = none) :
    (handleChange s document).store.messages m = none := by
  rw [handleChange_messages]
  cases removedBy document with
  | none => exact hm
  | some c =>
    rw [Option.elim_some, dropChannel]
    by_cases heq : c = m
    · rw [heq, apply_drop_self, Option.map_none]
    · rw [apply_drop_of_ne _ heq, hm, Option.map_none]

theorem handleInOrder_none (documents : List DocumentChange) (hm : s.store.messages m = none) :
    (handleInOrder documents s).store.messages m = none := by
  induction documents generalizing s with
  | nil => exact hm
  | cons document documents ih => exact ih (handleChange_none document hm)

/-- They ask for the deletion of no message if no message bears such an identifier. -/
theorem handleInOrder_requests {documents : List DocumentChange}
    (hm : ∀ document ∈ documents, ∀ c, removedBy document = some c → s.store.messages c = none)
    (hrequest : .message identifier m ∈ (handleInOrder documents s).requests) :
    .message identifier m ∈ s.requests := by
  induction documents generalizing s with
  | nil => exact hrequest
  | cons document documents ih =>
    have hfirst := hm document List.mem_cons_self
    have hlater : .message identifier m ∈ (handleChange s document).requests := by
      apply ih _ hrequest
      intro d hd c hc
      exact handleChange_none document (hm d (List.mem_cons_of_mem _ hd) c hc)
    rw [handleChange_requests, List.mem_append] at hlater
    rcases hlater with hold | hnew
    · exact hold
    · cases hremoved : removedBy document with
      | none =>
        rw [hremoved] at hnew
        cases hnew
      | some c =>
        rw [hremoved, Option.elim_some, message_mem_deletionRequests] at hnew
        exact absurd (hfirst c hremoved) hnew.2.2

end Rows

/-- A snapshot removes the channels that were shown before it and are not any more. -/
theorem mem_removed [DecidableEq User] {w : ChannelWorld.World User} (hw : ChannelWorld.Invariant w)
    {user : User} {named : List (String × Option ℕ)} {c : String} :
    c ∈ (twoPhases (ChannelWorld.snapshot w user named)).filterMap removedBy ↔
      w.shown user c ≠ none ∧ w.showing user named c = none := by
  rw [List.mem_filterMap]
  simp only [(twoPhases_perm _).mem_iff, ChannelWorld.snapshot, List.mem_filterMap]
  constructor
  · rintro ⟨document, ⟨documentID, -, hchange⟩, hremoved⟩
    unfold ChannelWorld.documentChange at hchange
    split at hchange
    · cases hchange
    · obtain rfl := Option.some.inj hchange
      cases hremoved
    · obtain rfl := Option.some.inj hchange
      cases hremoved
    · rename_i data hbefore hafter
      obtain rfl := Option.some.inj hchange
      obtain rfl : documentID = c := removedBy_eq_some hremoved
      exact ⟨hbefore ▸ Option.some_ne_none data, hafter⟩
  · rintro ⟨hbefore, hafter⟩
    obtain ⟨data, hdata⟩ := Option.ne_none_iff_exists'.mp hbefore
    refine ⟨⟨.removed, c, data⟩, ⟨c, ?_, ?_⟩, ?_⟩
    · by_contra hnamed
      exact hbefore ((ChannelSnapshots.showing_of_not_named hnamed).symm.trans hafter)
    · rw [ChannelWorld.documentChange, hdata, hafter]
    · have hread : (ChannelModel.ofDocument ⟨.removed, c, data⟩).isSome := by
        rw [ChannelModel.ofDocument_isSome]
        exact ChannelSnapshots.shown_named hw user c data hdata
      obtain ⟨model, hmodel⟩ := Option.isSome_iff_exists.mp hread
      rw [removedBy, if_pos rfl, hmodel, Option.map_some,
        ChannelModel.identifier_of_ofDocument hmodel]

theorem deleteChannelData_requests (identifier : String) (s : Service) :
    (deleteChannelData identifier s).requests = s.requests ++ deletionRequests identifier s := by
  rw [deletionRequests, deleteChannelData, deleteChannel_requests, deleteChannelMessages_requests,
    List.append_assoc, List.drop_left]

section Clients

variable [DecidableEq User]

/-- What a step with the channels does to the service of a client: it leaves the tables and
asks for nothing, or handles a snapshot, or deletes a channel. -/
theorem sync_service {w v : ChannelWorld.World User} {e : ChannelRelaunches.Event User}
    (he : ∀ v listener snapshot, e ≠ .sync (.act v (.messageSnapshot listener snapshot)))
    (h : ChannelRelaunches.step w e = some v) (user : User) :
    ((v.client user).service.store = (w.client user).service.store ∧
        (v.client user).service.requests ⊆ (w.client user).service.requests ∧
        ∀ c, ¬ Drops user c w e) ∨
      (∃ position named, e = .sync (.deliver user position named) ∧
        (v.client user).service = handleInOrder
          (twoPhases (ChannelWorld.snapshot w user named)) (w.client user).service) ∨
      ∃ identifier, e = .sync (.act user (.deleteRow identifier)) ∧
        (w.client user).service.store.channels identifier ≠ none ∧
        (v.client user).service = deleteChannelData identifier (w.client user).service := by
  cases e with
  | relaunch other =>
    obtain rfl := Option.some.inj h
    refine Or.inl ?_
    by_cases hv : user = other
    · subst hv
      simp [ChannelRelaunches.relaunch, Drops]
    · simp [ChannelRelaunches.relaunch, Function.update_of_ne hv, Drops]
  | sync event =>
    rcases ChannelSnapshots.step_client h user with ⟨hclient, hdeliver, hact⟩ |
      ⟨index, path, rfl, -, hclient⟩ | ⟨position, named, rfl, rfl⟩ |
      ⟨event, c, rfl, hevent, hc, hclient⟩
    · refine Or.inl ⟨by rw [hclient], by rw [hclient]; exact List.Subset.refl _, ?_⟩
      intro c hdrops
      cases event with
      | deliver other position named => exact hdeliver position named (hdrops.1 ▸ rfl)
      | act other event =>
        cases event with
        | deleteRow identifier => exact hact (.deleteRow identifier) (hdrops.1 ▸ rfl)
        | _ => exact hdrops.elim
      | _ => exact hdrops.elim
    · refine Or.inl ⟨by rw [hclient], ?_, fun c => id⟩
      rw [hclient]
      exact List.eraseIdx_subset
    · refine Or.inr (Or.inl ⟨position, named, rfl, ?_⟩)
      rw [ChannelSnapshots.delivered_client_self, updateChannels_eq]
    · rw [hclient]
      cases event with
      | channelSnapshot snapshot => exact absurd rfl (hevent snapshot)
      | messageSnapshot listener snapshot => exact absurd rfl (he user listener snapshot)
      | openConversation identifier =>
        obtain ⟨row, -, rfl⟩ := Option.map_eq_some_iff.mp hc
        exact Or.inl (by simp [Drops])
      | deleteRow identifier =>
        obtain ⟨row, hrow, rfl⟩ := Option.map_eq_some_iff.mp hc
        refine Or.inr (Or.inr ⟨identifier, rfl, hrow ▸ Option.some_ne_none row, ?_⟩)
        simp [deleteChannelData]

/-- A message that bears no channel's identifier loses its link to a channel that is dropped. -/
theorem sync_messages {w v : ChannelWorld.World User} {e : ChannelRelaunches.Event User}
    (hw : ChannelWorld.Invariant w)
    (he : ∀ v listener snapshot, e ≠ .sync (.act v (.messageSnapshot listener snapshot)))
    (h : ChannelRelaunches.step w e = some v) (user : User) {m : String}
    (hm : ¬ ChannelWorld.Known w user m) :
    ∃ removed, (v.client user).service.store.messages m =
        ((w.client user).service.store.messages m).map (unlink removed) ∧
      ∀ c, c ∈ removed ↔ Drops user c w e := by
  rcases sync_service he h user with ⟨hstore, -, hdrops⟩ |
    ⟨position, named, rfl, hservice⟩ | ⟨identifier, rfl, hrow, hservice⟩
  · refine ⟨[], ?_, fun c => iff_of_false List.not_mem_nil (hdrops c)⟩
    rw [hstore]
    exact Option.map_id'.symm
  · refine ⟨_, ?_, fun c => (mem_removed hw).trans (and_iff_right rfl).symm⟩
    rw [hservice]
    apply handleInOrder_messages
    intro document hmem hremoved
    have hgone := (mem_removed hw).mp (List.mem_filterMap.mpr ⟨document, hmem, hremoved⟩)
    exact hm (ChannelSnapshots.shown_known hw hgone.1)
  · have hne : identifier ≠ m := by
      rintro rfl
      exact hm ((hw.clients user).rows identifier hrow)
    refine ⟨[identifier], ?_, fun c => ?_⟩
    · rw [hservice, ChannelDeletion.deleteChannelData_messages_of_ne hne]
      rfl
    · rw [List.mem_singleton]
      exact eq_comm.trans (and_iff_right rfl).symm

/-- No message comes with a step with the channels. -/
theorem sync_none {w v : ChannelWorld.World User} {e : ChannelRelaunches.Event User}
    (he : ∀ v listener snapshot, e ≠ .sync (.act v (.messageSnapshot listener snapshot)))
    (h : ChannelRelaunches.step w e = some v) {user : User} {m : String}
    (hm : (w.client user).service.store.messages m = none) :
    (v.client user).service.store.messages m = none := by
  rcases sync_service he h user with ⟨hstore, -, -⟩ | ⟨position, named, -, hservice⟩ |
    ⟨identifier, -, -, hservice⟩
  · rw [hstore, hm]
  · rw [hservice, handleInOrder_none _ hm]
  · rw [hservice]
    by_cases heq : identifier = m
    · rw [← heq, ChannelDeletion.deleteChannelData_messages_self]
    · rw [ChannelDeletion.deleteChannelData_messages_of_ne heq, hm, Option.map_none]

/-- The deletion of no message is asked for if no stored one bears a channel's identifier. -/
theorem sync_requests {w v : ChannelWorld.World User} {e : ChannelRelaunches.Event User}
    (hw : ChannelWorld.Invariant w)
    (he : ∀ v listener snapshot, e ≠ .sync (.act v (.messageSnapshot listener snapshot)))
    (h : ChannelRelaunches.step w e = some v) {user : User}
    (hrows : ∀ m, (w.client user).service.store.messages m ≠ none → ¬ ChannelWorld.Known w user m)
    {identifier m : String} (hrequest : .message identifier m ∈ (v.client user).service.requests) :
    .message identifier m ∈ (w.client user).service.requests := by
  rcases sync_service he h user with ⟨-, hsubset, -⟩ |
    ⟨position, named, rfl, hservice⟩ | ⟨c, rfl, hrow, hservice⟩
  · exact hsubset hrequest
  · rw [hservice] at hrequest
    refine handleInOrder_requests (fun document hmem c hremoved => ?_) hrequest
    have hgone := (mem_removed hw).mp (List.mem_filterMap.mpr ⟨document, hmem, hremoved⟩)
    by_contra hstored
    exact hrows c hstored (ChannelSnapshots.shown_known hw hgone.1)
  · rw [hservice, deleteChannelData_requests] at hrequest
    refine (List.mem_append.mp hrequest).resolve_right fun hnew => ?_
    have hknown := (hw.clients user).rows c hrow
    exact hrows c (message_mem_deletionRequests.mp hnew).2.2 hknown

/-- A step with the channels brings no identifier of a channel but a fresh one. -/
theorem sync_identifiers {w v : ChannelWorld.World User} {e : ChannelRelaunches.Event User}
    (h : ChannelRelaunches.step w e = some v) :
    (∀ c, ChannelWorld.Logged v.log c →
        ChannelWorld.Logged w.log c ∨ ∃ a ∈ w.adding, a.documentID = c) ∧
      (∀ a ∈ v.adding, a ∈ w.adding ∨ a.documentID ∉ w.used) ∧ w.used ⊆ v.used := by
  cases e with
  | relaunch other =>
    obtain rfl := Option.some.inj h
    exact ⟨fun c => Or.inl, fun a => Or.inl, List.Subset.refl _⟩
  | sync event =>
    cases event with
    | createChannel other name documentID =>
      obtain ⟨hfresh, heq⟩ := Option.ite_none_right_eq_some.mp h
      obtain rfl := Option.some.inj heq
      refine ⟨fun c => Or.inl, fun a ha => ?_, List.subset_append_left _ _⟩
      rcases List.mem_append.mp ha with hold | hnew
      · exact Or.inl hold
      · rw [List.mem_singleton.mp hnew]
        exact Or.inr hfresh
    | addArrives index =>
      obtain ⟨d, hd, rfl⟩ := Option.map_eq_some_iff.mp h
      refine ⟨fun c hc => ?_, fun a ha => ?_, List.Subset.refl _⟩
      · refine (ChannelWorld.logged_append_cases hc).imp_right fun heq => ?_
        exact ⟨d, List.mem_of_getElem? hd, heq.symm⟩
      · exact Or.inl (List.mem_of_mem_eraseIdx ha)
    | rewrite documentID data =>
      obtain ⟨⟨hlive, -⟩, heq⟩ := Option.ite_none_right_eq_some.mp h
      obtain rfl := Option.some.inj heq
      refine ⟨fun c hc => Or.inl ?_, fun a => Or.inl, List.Subset.refl _⟩
      rcases ChannelWorld.logged_append_cases hc with hold | rfl
      · exact hold
      · exact mem_log_of_current (Option.isSome_iff_ne_none.mp hlive)
    | requestArrives other index =>
      obtain ⟨path, -, -, rfl⟩ := ChannelWorld.requestArrives_eq_some.mp h
      refine ⟨fun c hc => Or.inl ?_, fun a ha => Or.inl ?_, ?_⟩
      · change ChannelWorld.Logged (w.perform other path).log c at hc
        rcases ChannelWorld.perform_log w other path with heq | ⟨i, -, hlive, heq⟩
        · rwa [heq] at hc
        · rw [heq] at hc
          rcases ChannelWorld.logged_append_cases hc with hold | rfl
          · exact hold
          · exact mem_log_of_current hlive
      · exact ChannelWorld.perform_adding w other path ▸ ha
      · change w.used ⊆ (w.perform other path).used
        rw [ChannelWorld.perform_used]
        exact List.Subset.refl _
    | deliver other position named =>
      obtain ⟨-, rfl⟩ := ChannelSnapshots.deliver_eq_some h
      exact ⟨fun c => Or.inl, fun a => Or.inl, List.Subset.refl _⟩
    | act other event =>
      obtain ⟨-, c, -, rfl⟩ := ChannelSnapshots.act_cases h
      exact ⟨fun c => Or.inl, fun a => Or.inl, List.Subset.refl _⟩

end Clients

/-- What holds in every state: every stored message is a document, with at most its link to
the channel gone, and bears no identifier that a channel has or will have. -/
structure Invariant (senderId : User → String) (w : World User) : Prop where
  sync : ChannelWorld.Invariant w.sync
  nodup : (w.documents.map Sent.documentID).Nodup
  texts : ∀ d ∈ w.documents, (trimmingCharacters d.tap.message).isEmpty = false
  used : ∀ d ∈ w.documents, d.documentID ∈ w.sync.used
  fresh : ∀ d ∈ w.documents, ¬ ChannelWorld.Logged w.sync.log d.documentID
  adding : ∀ d ∈ w.documents, ∀ a ∈ w.sync.adding, a.documentID ≠ d.documentID
  requests : ∀ user c m, .message c m ∉ (w.sync.client user).service.requests
  rows : ∀ user m row, (w.sync.client user).service.store.messages m = some row →
    ∃ d ∈ w.documents, d.documentID = m ∧ unlinked row = unlinked (rowOf senderId d) ∧
      (row.channel = some d.tap.identifier ∨ row.channel = none)

variable {senderId : User → String} {w v : World User}

theorem init_invariant (senderId : User → String) :
    Invariant senderId (World.init : World User) := by
  constructor <;> simp [World.init, ChannelWorld.init_invariant] <;>
    simp [ChannelWorld.World.init, ChatClient.Client.empty, Service.empty, Store.empty]

/-- The messages in a client's table bear no channel's identifier. -/
theorem stored_fresh (hw : Invariant senderId w) (user : User) (m : String)
    (hm : (w.sync.client user).service.store.messages m ≠ none) :
    ¬ ChannelWorld.Known w.sync user m := by
  obtain ⟨row, hrow⟩ := Option.ne_none_iff_exists'.mp hm
  obtain ⟨d, hd, rfl, -⟩ := hw.rows user m row hrow
  rintro (hlogged | ⟨a, ha, -, heq⟩)
  · exact hw.fresh d hd hlogged
  · exact hw.adding d hd a ha heq

section Steps

variable [DecidableEq User]

/-- The table of the client after a delivery. -/
def delivered (senderId : User → String) (w : World User) (user : User) (channel : ChannelModel)
    (documentIDs : List String) : World User :=
  { w with
    sync := { w.sync with
      client := Function.update w.sync.client user { w.sync.client user with
        service := updateMessages channel
          (some ((w.wanted channel.identifier documentIDs).map (Sent.added senderId)))
          (w.sync.client user).service } } }

/-- No step with the channels touches the documents. -/
theorem step_cases {e : Event User} (hw : Invariant senderId w)
    (h : step senderId w e = some v) :
    (∃ event sync, e = .sync event ∧
        (∀ v listener snapshot, event ≠ .sync (.act v (.messageSnapshot listener snapshot))) ∧
        ChannelRelaunches.step w.sync event = some sync ∧ v = { w with sync }) ∨
      (∃ t now documentID, e = .createMessage t now documentID ∧
        (trimmingCharacters t.message).isEmpty = false ∧ documentID ∉ w.sync.used ∧
        v = {
          sync := { w.sync with used := w.sync.used ++ [documentID] }
          documents := w.documents ++ [⟨t, documentID, now⟩] }) ∨
      ∃ user listener documentIDs channel, e = .deliver user listener documentIDs ∧
        (w.sync.client user).listeners[listener]? = some channel ∧
        ChannelWorld.step w.sync (.act user (.messageSnapshot listener
          (some ((w.wanted channel.identifier documentIDs).map (Sent.added senderId))))) =
            some (delivered senderId w user channel documentIDs).sync ∧
        v = delivered senderId w user channel documentIDs := by
  cases e with
  | createMessage t now documentID =>
    obtain ⟨⟨htext, hfresh⟩, heq⟩ := Option.ite_none_right_eq_some.mp h
    exact Or.inr (Or.inl ⟨t, now, documentID, rfl, htext, hfresh, (Option.some.inj heq).symm⟩)
  | deliver user listener documentIDs =>
    obtain ⟨channel, hchannel, hsync⟩ := Option.bind_eq_some_iff.mp h
    have hstep : ChannelWorld.step w.sync (.act user (.messageSnapshot listener
        (some ((w.wanted channel.identifier documentIDs).map (Sent.added senderId))))) =
          some (delivered senderId w user channel documentIDs).sync := by
      simp [ChannelWorld.step, ChatClient.step, hchannel, delivered]
    rw [hstep] at hsync
    exact Or.inr (Or.inr ⟨user, listener, documentIDs, channel, rfl, hchannel, hstep,
      (Option.some.inj hsync).symm⟩)
  | sync event =>
    left
    have hgeneral (he : ∀ v listener snapshot,
          event ≠ .sync (.act v (.messageSnapshot listener snapshot)))
        (hstep : (ChannelRelaunches.step w.sync event).map (fun sync => { w with sync }) = some v) :
        ∃ event' sync, Event.sync event = .sync event' ∧
          (∀ v listener snapshot, event' ≠ .sync (.act v (.messageSnapshot listener snapshot))) ∧
          ChannelRelaunches.step w.sync event' = some sync ∧ v = { w with sync } := by
      obtain ⟨sync, hsync, rfl⟩ := Option.map_eq_some_iff.mp hstep
      exact ⟨event, sync, rfl, he, hsync, rfl⟩
    cases event with
    | relaunch other => exact hgeneral (by simp) h
    | sync event =>
      cases event with
      | createChannel other name documentID => exact hgeneral (by simp) h
      | addArrives index => exact hgeneral (by simp) h
      | rewrite documentID data => exact hgeneral (by simp) h
      | deliver other position named => exact hgeneral (by simp) h
      | requestArrives other index =>
        refine hgeneral (by simp) ?_
        obtain ⟨path, hpath, hstep⟩ := Option.bind_eq_some_iff.mp h
        cases path with
        | channel identifier => exact hstep
        | message c m => exact absurd (List.mem_of_getElem? hpath) (hw.requests other c m)
      | act other event =>
        cases event with
        | channelSnapshot snapshot => exact hgeneral (by simp) h
        | openConversation identifier => exact hgeneral (by simp) h
        | deleteRow identifier => exact hgeneral (by simp) h
        | messageSnapshot listener snapshot => cases h

omit [DecidableEq User] in
theorem mem_wanted {identifier : String} {documentIDs : List String} {d : Sent User} :
    d ∈ w.wanted identifier documentIDs ↔
      d ∈ w.documents ∧ d.tap.identifier = identifier ∧ d.documentID ∈ documentIDs := by
  rw [World.wanted, List.mem_filter, decide_eq_true_iff]

omit [DecidableEq User] in
/-- What a delivery logs: the rows of the documents. -/
theorem wanted_log (hw : Invariant senderId w) (identifier : String) (documentIDs : List String) :
    messageLog identifier ((w.wanted identifier documentIDs).map (Sent.added senderId)) =
      (w.wanted identifier documentIDs).map fun d => .put d.documentID (rowOf senderId d) := by
  apply Messaging.messageLog_added
  intro d hd
  obtain ⟨hmem, hidentifier, -⟩ := mem_wanted.mp hd
  exact ⟨hw.texts d hmem, hidentifier⟩

/-- A document that is delivered is stored as it was sent, linked to its channel. -/
theorem delivered_self (hw : Invariant senderId w) (user : User) {channel : ChannelModel}
    {documentIDs : List String} {d : Sent User} (hd : d ∈ w.wanted channel.identifier documentIDs) :
    ((delivered senderId w user channel documentIDs).sync.client
      user).service.store.messages d.documentID = some (rowOf senderId d) := by
  simp only [delivered, Function.update_self, updateMessages_messages, wanted_log hw]
  apply replay_of_forall_value
  · intro c hc hkey
    obtain ⟨d', hd', rfl⟩ := List.mem_map.mp hc
    obtain rfl : d' = d := List.inj_on_of_nodup_map hw.nodup (mem_wanted.mp hd').1
      (mem_wanted.mp hd).1 hkey
    rfl
  · exact ⟨_, List.mem_map_of_mem hd, rfl⟩

theorem delivered_of_ne (hw : Invariant senderId w) (user : User) {channel : ChannelModel}
    {documentIDs : List String} {m : String}
    (hm : ∀ d ∈ w.wanted channel.identifier documentIDs, d.documentID ≠ m) :
    ((delivered senderId w user channel documentIDs).sync.client user).service.store.messages m =
      (w.sync.client user).service.store.messages m := by
  simp only [delivered, Function.update_self, updateMessages_messages, wanted_log hw]
  apply replay_of_not_mem
  intro c hc
  obtain ⟨d, hd, rfl⟩ := List.mem_map.mp hc
  exact hm d hd

theorem delivered_other {user other : User} (h : other ≠ user) (channel : ChannelModel)
    (documentIDs : List String) :
    (delivered senderId w user channel documentIDs).sync.client other = w.sync.client other :=
  Function.update_of_ne h _ _

/-- A delivery of other documents, or to another client, leaves the message as it is. -/
theorem delivered_messages (hw : Invariant senderId w) {user other : User}
    {channel : ChannelModel} {documentIDs : List String} {m : String}
    (h : ¬ (other = user ∧ ∃ d ∈ w.wanted channel.identifier documentIDs, d.documentID = m)) :
    ((delivered senderId w other channel documentIDs).sync.client
      user).service.store.messages m = (w.sync.client user).service.store.messages m := by
  by_cases hv : user = other
  · subst hv
    exact delivered_of_ne hw user fun d hd heq => h ⟨rfl, d, hd, heq⟩
  · rw [delivered_other hv]

theorem delivered_requests (user other : User) (channel : ChannelModel)
    (documentIDs : List String) :
    ((delivered senderId w user channel documentIDs).sync.client other).service.requests =
      (w.sync.client other).service.requests := by
  by_cases hv : other = user
  · subst hv
    simp [delivered, updateMessages]
  · rw [delivered_other hv]

theorem delivered_invariant (hw : Invariant senderId w) (user : User) (channel : ChannelModel)
    (documentIDs : List String)
    (hsync : ChannelWorld.Invariant (delivered senderId w user channel documentIDs).sync) :
    Invariant senderId (delivered senderId w user channel documentIDs) where
  sync := hsync
  nodup := hw.nodup
  texts := hw.texts
  used := hw.used
  fresh := hw.fresh
  adding := hw.adding
  requests other c m := by
    rw [delivered_requests]
    exact hw.requests other c m
  rows other m row hrow := by
    by_cases hv : other = user
    · subst hv
      by_cases hm : ∃ d ∈ w.wanted channel.identifier documentIDs, d.documentID = m
      · obtain ⟨d, hd, rfl⟩ := hm
        obtain rfl := Option.some.inj ((delivered_self hw other hd).symm.trans hrow)
        exact ⟨d, (mem_wanted.mp hd).1, rfl, rfl, Or.inl rfl⟩
      · rw [delivered_of_ne hw other fun d hd heq => hm ⟨d, hd, heq⟩] at hrow
        exact hw.rows other m row hrow
    · rw [delivered_other hv] at hrow
      exact hw.rows other m row hrow

omit [DecidableEq User] in
theorem createMessage_invariant (hw : Invariant senderId w) {t : Tap User} {now : Date}
    {documentID : String} (htext : (trimmingCharacters t.message).isEmpty = false)
    (hfresh : documentID ∉ w.sync.used) :
    Invariant senderId {
      sync := { w.sync with used := w.sync.used ++ [documentID] }
      documents := w.documents ++ [⟨t, documentID, now⟩] } := by
  have hsync : ChannelWorld.Invariant { w.sync with used := w.sync.used ++ [documentID] } :=
    { hw.sync with
      log_used := fun c hc => List.mem_append_left _ (hw.sync.log_used c hc)
      adding_used := fun a ha => List.mem_append_left _ (hw.sync.adding_used a ha) }
  have hcases : ∀ d ∈ w.documents ++ [(⟨t, documentID, now⟩ : Sent User)],
      d ∈ w.documents ∨ d = ⟨t, documentID, now⟩ :=
    fun d hd => (List.mem_append.mp hd).imp_right List.mem_singleton.mp
  refine ⟨hsync, ?_, fun d hd => ?_, fun d hd => ?_, fun d hd => ?_, fun d hd => ?_,
    hw.requests, fun user m row hrow => ?_⟩
  · rw [List.map_append, List.map_singleton, ← List.concat_eq_append, List.nodup_concat]
    refine ⟨fun hmem => ?_, hw.nodup⟩
    obtain ⟨d, hd, heq⟩ := List.mem_map.mp hmem
    have hid : d.documentID = documentID := heq
    exact hfresh (hid ▸ hw.used d hd)
  · rcases hcases d hd with hold | rfl
    · exact hw.texts d hold
    · exact htext
  · rcases hcases d hd with hold | rfl
    · exact List.mem_append_left _ (hw.used d hold)
    · exact List.mem_append_right _ (List.mem_singleton_self _)
  · rcases hcases d hd with hold | rfl
    · exact hw.fresh d hold
    · exact fun hlogged => hfresh (hw.sync.log_used _ hlogged)
  · rcases hcases d hd with hold | rfl
    · exact hw.adding d hold
    · rintro a ha rfl
      exact hfresh (hw.sync.adding_used a ha)
  · obtain ⟨d, hd, hrest⟩ := hw.rows user m row hrow
    exact ⟨d, List.mem_append_left _ hd, hrest⟩

theorem sync_invariant (hw : Invariant senderId w) {event : ChannelRelaunches.Event User}
    {sync : ChannelWorld.World User}
    (he : ∀ v listener snapshot, event ≠ .sync (.act v (.messageSnapshot listener snapshot)))
    (h : ChannelRelaunches.step w.sync event = some sync) :
    Invariant senderId { w with sync } := by
  obtain ⟨hlogged, hadding, hused⟩ := sync_identifiers h
  refine {
    sync := ChannelRelaunches.step_invariant hw.sync h
    nodup := hw.nodup
    texts := hw.texts
    used := fun d hd => hused (hw.used d hd)
    fresh := ?_, adding := ?_, requests := ?_, rows := ?_ }
  · intro d hd hc
    rcases hlogged d.documentID hc with hold | ⟨a, ha, heq⟩
    · exact hw.fresh d hd hold
    · exact hw.adding d hd a ha heq
  · intro d hd a ha heq
    rcases hadding a ha with hold | hnew
    · exact hw.adding d hd a hold heq
    · exact hnew (heq ▸ hw.used d hd)
  · intro user c m hrequest
    exact hw.requests user c m (sync_requests hw.sync he h (stored_fresh hw user) hrequest)
  · intro user m row hrow
    have hstored : (w.sync.client user).service.store.messages m ≠ none := by
      intro hnone
      rw [sync_none he h hnone] at hrow
      cases hrow
    obtain ⟨removed, hmessages, -⟩ :=
      sync_messages hw.sync he h user (stored_fresh hw user m hstored)
    rw [hmessages] at hrow
    obtain ⟨old, hold, rfl⟩ := Option.map_eq_some_iff.mp hrow
    obtain ⟨d, hd, hid, hfields, hlink⟩ := hw.rows user m old hold
    refine ⟨d, hd, hid, unlinked_unlink.trans hfields, ?_⟩
    cases hchannel : (unlink removed old).channel with
    | none => exact Or.inr rfl
    | some c =>
      have hc := (unlink_channel_eq_some.mp hchannel).1
      rcases hlink with heq | hnone
      · exact Or.inl (hc.symm.trans heq)
      · cases hnone.symm.trans hc

theorem step_invariant {e : Event User} (hw : Invariant senderId w)
    (h : step senderId w e = some v) : Invariant senderId v := by
  rcases step_cases hw h with ⟨event, sync, -, he, hsync, rfl⟩ |
    ⟨t, now, documentID, -, htext, hfresh, rfl⟩ |
    ⟨user, listener, documentIDs, channel, -, -, hstep, rfl⟩
  · exact sync_invariant hw he hsync
  · exact createMessage_invariant hw htext hfresh
  · exact delivered_invariant hw user channel documentIDs
      (ChannelSnapshots.step_invariant hw.sync hstep)

/-- A document of the channel's collection is handed to a listener of the user. -/
def Delivers (user : User) (identifier m : String) (w : World User) : Event User → Prop
  | .deliver v listener documentIDs => v = user ∧
      (∃ channel, (w.sync.client user).listeners[listener]? = some channel ∧
        channel.identifier = identifier) ∧
      ∃ d ∈ w.wanted identifier documentIDs, d.documentID = m
  | _ => False

def DropsChannel (user : User) (identifier : String) (w : World User) : Event User → Prop
  | .sync event => Drops user identifier w.sync event
  | _ => False

def Stored (user : User) (m : String) (w : World User) : Prop :=
  (w.sync.client user).service.store.messages m ≠ none

/-- The conversation screen of the channel finds the message in the client's table. -/
def Linked (user : User) (identifier m : String) (w : World User) : Prop :=
  ∃ row, (w.sync.client user).service.store.messages m = some row ∧
    row.channel = some identifier

omit [DecidableEq User] in
theorem linked_congr {user : User} {identifier m : String}
    (h : (v.sync.client user).service.store.messages m =
      (w.sync.client user).service.store.messages m) :
    Linked user identifier m v ↔ Linked user identifier m w := by
  rw [Linked, h, Linked]

omit [DecidableEq User] in
/-- A message is linked to no other channel than that it was sent to. -/
theorem linked_identifier (hw : Invariant senderId w) {user : User} {identifier : String}
    {d : Sent User} (hd : d ∈ w.documents) (h : Linked user identifier d.documentID w) :
    d.tap.identifier = identifier := by
  obtain ⟨row, hrow, hlink⟩ := h
  obtain ⟨d', hd', hid, -, hchannel⟩ := hw.rows user d.documentID row hrow
  obtain rfl : d' = d := List.inj_on_of_nodup_map hw.nodup hd' hd hid
  rcases hchannel with heq | hnone
  · exact Option.some.inj (heq.symm.trans hlink)
  · cases hnone.symm.trans hlink

/-- A row comes with a delivery, and no step takes it away. -/
theorem step_stored {e : Event User} (hw : Invariant senderId w)
    (h : step senderId w e = some v) (user : User) (m : String) :
    Stored user m v ↔ (∃ identifier, Delivers user identifier m w e) ∨ Stored user m w := by
  rcases step_cases hw h with ⟨event, sync, rfl, he, hsync, rfl⟩ |
    ⟨t, now, documentID, rfl, -, -, rfl⟩ |
    ⟨other, listener, documentIDs, channel, rfl, hlistener, -, rfl⟩
  · have hno : ¬ ∃ identifier, Delivers user identifier m w (.sync event) :=
      fun h => h.elim fun _ => id
    rw [or_iff_right hno]
    constructor
    · intro hv hnone
      exact hv (sync_none he hsync hnone)
    · intro hstored
      obtain ⟨removed, hmessages, -⟩ :=
        sync_messages hw.sync he hsync user (stored_fresh hw user m hstored)
      exact ne_of_eq_of_ne hmessages (mt Option.map_eq_none_iff.mp hstored)
  · exact (or_iff_right fun h => h.elim fun _ => id).symm
  · by_cases hd : other = user ∧ ∃ d ∈ w.wanted channel.identifier documentIDs, d.documentID = m
    · obtain ⟨rfl, d, hmem, rfl⟩ := hd
      refine iff_of_true ?_ (Or.inl ⟨_, rfl, ⟨channel, hlistener, rfl⟩, d, hmem, rfl⟩)
      rw [Stored, delivered_self hw other hmem]
      exact Option.some_ne_none _
    · have hno : ¬ ∃ identifier, Delivers user identifier m w
          (.deliver other listener documentIDs) := by
        rintro ⟨_, rfl, ⟨channel', hlistener', rfl⟩, hmem⟩
        obtain rfl := Option.some.inj (hlistener.symm.trans hlistener')
        exact hd ⟨rfl, hmem⟩
      rw [or_iff_right hno, Stored, delivered_messages hw hd, Stored]

/-- A message is linked by a delivery through the channel's listener, and unlinked when the
client drops the channel. -/
theorem step_linked {e : Event User} (hw : Invariant senderId w)
    (h : step senderId w e = some v) (user : User) (identifier m : String) :
    Linked user identifier m v ↔ Delivers user identifier m w e ∨
      Linked user identifier m w ∧ ¬ DropsChannel user identifier w e := by
  rcases step_cases hw h with ⟨event, sync, rfl, he, hsync, rfl⟩ |
    ⟨t, now, documentID, rfl, -, -, rfl⟩ |
    ⟨other, listener, documentIDs, channel, rfl, hlistener, -, rfl⟩
  · rw [or_iff_right (id : ¬ Delivers user identifier m w (.sync event))]
    cases hrow : (w.sync.client user).service.store.messages m with
    | none =>
      refine iff_of_false ?_ ?_
      · rintro ⟨row, hv, -⟩
        cases (sync_none he hsync hrow).symm.trans hv
      · rintro ⟨⟨row, hw', -⟩, -⟩
        cases hrow.symm.trans hw'
    | some row =>
      have hstored : (w.sync.client user).service.store.messages m ≠ none :=
        hrow ▸ Option.some_ne_none row
      obtain ⟨removed, hmessages, hremoved⟩ :=
        sync_messages hw.sync he hsync user (stored_fresh hw user m hstored)
      rw [hrow, Option.map_some] at hmessages
      have hv : Linked user identifier m { w with sync } ↔
          (unlink removed row).channel = some identifier := by
        simp [Linked, hmessages]
      have hbefore : Linked user identifier m w ↔ row.channel = some identifier := by
        simp [Linked, hrow]
      rw [hv, hbefore, unlink_channel_eq_some, hremoved]
      rfl
  · exact (or_iff_right id).trans (and_iff_left id) |>.symm
  · have hkeeps : ¬ DropsChannel user identifier w (.deliver other listener documentIDs) := id
    rw [and_iff_left hkeeps]
    by_cases hd : other = user ∧ ∃ d ∈ w.wanted channel.identifier documentIDs, d.documentID = m
    · obtain ⟨rfl, d, hmem, rfl⟩ := hd
      obtain ⟨hdocument, hchannel, -⟩ := mem_wanted.mp hmem
      have hrow := delivered_self hw other hmem
      by_cases hidentifier : channel.identifier = identifier
      · refine iff_of_true ⟨_, hrow, ?_⟩
          (Or.inl ⟨rfl, ⟨channel, hlistener, hidentifier⟩, d, ?_, rfl⟩)
        · exact congrArg some (hchannel.trans hidentifier)
        · rwa [← hidentifier]
      · refine iff_of_false ?_ ?_
        · rintro ⟨row, hv, hlink⟩
          obtain rfl := Option.some.inj (hrow.symm.trans hv)
          exact hidentifier (hchannel.symm.trans (Option.some.inj hlink))
        · rintro (⟨-, ⟨channel', hlistener', heq⟩, -⟩ | hlinked)
          · obtain rfl := Option.some.inj (hlistener.symm.trans hlistener')
            exact hidentifier heq
          · exact hidentifier (hchannel.symm.trans (linked_identifier hw hdocument hlinked))
    · have hno : ¬ Delivers user identifier m w (.deliver other listener documentIDs) := by
        rintro ⟨rfl, ⟨channel', hlistener', rfl⟩, hmem⟩
        obtain rfl := Option.some.inj (hlistener.symm.trans hlistener')
        exact hd ⟨rfl, hmem⟩
      rw [or_iff_right hno]
      exact linked_congr (delivered_messages hw hd)

/-- The document that a step adds to the server. -/
def Event.created : Event User → Option (Sent User)
  | .createMessage t now documentID => some ⟨t, documentID, now⟩
  | _ => none

theorem step_documents {e : Event User} (hw : Invariant senderId w)
    (h : step senderId w e = some v) : v.documents = w.documents ++ e.created.toList := by
  rcases step_cases hw h with ⟨event, sync, rfl, -, -, rfl⟩ |
    ⟨t, now, documentID, rfl, -, -, rfl⟩ | ⟨user, listener, documentIDs, channel, rfl, -, -, rfl⟩
  · exact (List.append_nil _).symm
  · rfl
  · exact (List.append_nil _).symm

theorem run_documents {es : List (Event User)}
    (h : run (step senderId) World.init es = some w) :
    Invariant senderId w ∧ w.documents = es.filterMap Event.created := by
  induction es using List.reverseRecOn generalizing w with
  | nil =>
    obtain rfl := Option.some.inj h
    exact ⟨init_invariant senderId, rfl⟩
  | append_singleton es e ih =>
    obtain ⟨t, ht, hlast⟩ := run_concat_eq_some.mp h
    obtain ⟨hinvariant, hdocuments⟩ := ih ht
    refine ⟨step_invariant hinvariant hlast, ?_⟩
    rw [step_documents hinvariant hlast, hdocuments, List.filterMap_append]
    cases hcreated : e.created <;> simp [hcreated]

/-- The user's client was handed the document. -/
def Handed (senderId : User → String) (user : User) (m : String) (es : List (Event User)) : Prop :=
  ∃ before e after w, es = before ++ e :: after ∧
    run (step senderId) World.init before = some w ∧ ∃ identifier, Delivers user identifier m w e

theorem stored_iff_handed {es : List (Event User)}
    (h : run (step senderId) World.init es = some w) (user : User) (m : String) :
    Stored user m w ↔ Handed senderId user m es := by
  refine Iff.trans ?_ (since_never_iff h)
  refine run_since_iff (fun w e v hw hv => step_invariant hw hv) ?_ (fun _ _ _ _ _ _ => False.elim)
    ?_ (init_invariant senderId) (fun hstored => hstored rfl) h
  · exact fun w e v hw hv hdelivers => (step_stored hw hv user m).mpr (Or.inl hdelivers)
  · exact fun w e v hw hv hdelivers _ => (step_stored hw hv user m).trans (or_iff_right hdelivers)

/-- No message is ever deleted, on the server or on a client: the collections hold what was
sent, no request names a message, and the table of a client has a row for each document that
the client was ever handed, with the fields as they were sent. -/
theorem messages_kept {es : List (Event User)}
    (h : run (step senderId) World.init es = some w) :
    w.documents = es.filterMap Event.created ∧ ∀ user,
      (∀ identifier m, .message identifier m ∉ (w.sync.client user).service.requests) ∧
        ∀ m, ((w.sync.client user).service.store.messages m ≠ none ↔
            Handed senderId user m es) ∧
          ∀ row, (w.sync.client user).service.store.messages m = some row →
            ∃ d ∈ w.documents, d.documentID = m ∧ unlinked row = unlinked (rowOf senderId d) := by
  obtain ⟨hw, hdocuments⟩ := run_documents h
  refine ⟨hdocuments, fun user => ⟨hw.requests user, fun m => ⟨stored_iff_handed h user m, ?_⟩⟩⟩
  intro row hrow
  obtain ⟨d, hd, hid, hfields, -⟩ := hw.rows user m row hrow
  exact ⟨d, hd, hid, hfields⟩

/-- A message is shown in its channel if it was handed to a listener of the channel and the
client has not dropped the channel since. -/
theorem linked_iff {es : List (Event User)} (h : run (step senderId) World.init es = some w)
    (user : User) (identifier m : String) :
    Linked user identifier m w ↔ Since (step senderId) (Delivers user identifier m)
      (DropsChannel user identifier) World.init es := by
  have hnone : ¬ Linked user identifier m (World.init : World User) := by
    rintro ⟨row, hrow, -⟩
    cases hrow
  refine run_since_iff (fun w e v hw hv => step_invariant hw hv) ?_ ?_ ?_
    (init_invariant senderId) hnone h
  · exact fun w e v hw hv hdelivers =>
      (step_linked hw hv user identifier m).mpr (Or.inl hdelivers)
  · intro w e v hw hv hdelivers hdrops hlinked
    rcases (step_linked hw hv user identifier m).mp hlinked with hnew | ⟨-, hkept⟩
    · exact hdelivers hnew
    · exact hkept hdrops
  · intro w e v hw hv hdelivers hdrops
    rw [step_linked hw hv, or_iff_right hdelivers, and_iff_left hdrops]

end Steps

/-- A message is handed to a client, and the other user deletes the channel. -/
def channelDeleted : List (Event ℕ) := [
  .sync (.sync (.createChannel 0 "General" "c1")), .sync (.sync (.deliver 0 0 [("c1", none)])),
  .sync (.sync (.addArrives 0)), .sync (.sync (.deliver 1 1 [("c1", some 1)])),
  .sync (.sync (.act 0 (.openConversation "c1"))), .createMessage ⟨1, "c1", "Hi", 0⟩ 5 "m1",
  .deliver 0 0 ["m1"], .sync (.sync (.act 1 (.deleteRow "c1"))),
  .sync (.sync (.requestArrives 1 0)), .sync (.sync (.deliver 0 2 [("c1", some 2)]))]

def sender (user : ℕ) : String := if user = 0 then "s0" else "s1"

theorem messages_kept_channelDeleted :
    ∃ w, run (step sender) World.init channelDeleted = some w ∧
      w.documents = [⟨⟨1, "c1", "Hi", 0⟩, "m1", 5⟩] ∧
      Handed sender 0 "m1" channelDeleted := by
  obtain ⟨w, hrun⟩ : ∃ w, run (step sender) World.init channelDeleted = some w := ⟨_, rfl⟩
  obtain ⟨hdocuments, hclients⟩ := messages_kept hrun
  refine ⟨w, hrun, hdocuments, ((hclients 0).2 "m1").1.mp ?_⟩
  obtain rfl := Option.some.inj hrun
  decide

/-- The message is out of the channel after the deletion. -/
theorem linked_iff_channelDeleted :
    ∃ w v, run (step sender) World.init (channelDeleted.take 7) = some w ∧
      Linked 0 "c1" "m1" w ∧ run (step sender) World.init channelDeleted = some v ∧
      ¬ Since (step sender) (Delivers 0 "c1" "m1") (DropsChannel 0 "c1") World.init
        channelDeleted := by
  obtain ⟨t, ht⟩ : ∃ t, run (step sender) World.init (channelDeleted.take 6) = some t :=
    ⟨_, rfl⟩
  obtain ⟨w, hw⟩ : ∃ w, run (step sender) World.init (channelDeleted.take 7) = some w :=
    ⟨_, rfl⟩
  obtain ⟨v, hv⟩ : ∃ v, run (step sender) World.init channelDeleted = some v := ⟨_, rfl⟩
  refine ⟨w, v, hw, (linked_iff hw 0 "c1" "m1").mpr ?_, hv,
    mt (linked_iff hv 0 "c1" "m1").mpr ?_⟩
  · refine ⟨channelDeleted.take 6, .deliver 0 0 ["m1"], [], t, w, rfl, ht, ?_, ?_, trivial⟩
    · obtain rfl := Option.some.inj ht
      exact ⟨rfl, ⟨_, rfl, rfl⟩, _, List.mem_singleton_self _, rfl⟩
    · obtain rfl := Option.some.inj ht
      exact hw
  · rintro ⟨row, hrow, hlink⟩
    obtain rfl := Option.some.inj hv
    obtain rfl := Option.some.inj hrow
    cases hlink

end TinkoffChat.MessageHistory

import TinkoffChat.FireStoreService
import Mathlib.Tactic.FinCases

/-!
The messages of one channel after a run of message snapshots. A change counts
when it is a removal or passes the four guards, and the last change that counts
decides the row. The listener never looks at the type of a change, so a removal
that passes the guards is stored like any other change; the table is right
exactly for the documents that were never well-formed when they are removed last.
-/
namespace TinkoffChat.MessageMirror

open ChangeLog Documents LocalStore FireStoreService

/-- The content is a String that is not blank, created a Timestamp, and both names of
the sender are Strings. -/
def WellFormed (document : DocumentChange) : Prop :=
  (∃ content ∈ document.data.string "content", (trimmingCharacters content).isEmpty = false) ∧
    (document.data.timestamp "created").isSome ∧
    (document.data.string "senderId").isSome ∧
    (document.data.string "senderName").isSome

instance (document : DocumentChange) : Decidable (WellFormed document) := by
  unfold WellFormed
  infer_instance

/-- These are the documents that pass the guards of the listener. -/
theorem ofDocument_isSome (document : DocumentChange) :
    (MessageModel.ofDocument document).isSome ↔ WellFormed document := by
  unfold WellFormed MessageModel.ofDocument
  cases document.data.string "content" with
  | none => simp
  | some content =>
    by_cases hblank : trimmingCharacters content = ""
    · simp [hblank, guard]
    · cases document.data.timestamp "created" <;> cases document.data.string "senderId" <;>
        cases document.data.string "senderName" <;> simp [hblank, guard]

/-- An added or modified change that fails a guard is ignored. -/
def Counts (document : DocumentChange) : Prop :=
  document.type = .removed ∨ WellFormed document

instance (document : DocumentChange) : Decidable (Counts document) := by
  unfold Counts
  infer_instance

def lastCounting (identifier : String) (documentChanges : List DocumentChange) :
    Option DocumentChange :=
  documentChanges.findRev? fun document => document.documentID = identifier ∧ Counts document

def lastWellFormed (identifier : String) (documentChanges : List DocumentChange) :
    Option DocumentChange :=
  documentChanges.findRev? fun document => document.documentID = identifier ∧ WellFormed document

/-- The fields of a document as a row linked to the channel. -/
def fieldsOf (channel : String) (document : DocumentChange) : Option MessageDb := do
  let content ← document.data.string "content"
  let created ← document.data.timestamp "created"
  let senderId ← document.data.string "senderId"
  let senderName ← document.data.string "senderName"
  return {
    content := content
    created := created.dateValue
    senderId := senderId
    senderName := senderName
    channel := some channel
  }

/-- The row a change should leave: none after a removal, else the document's fields. -/
def rowOf (channel : String) (document : DocumentChange) : Option MessageDb :=
  if document.type = .removed then none else fieldsOf channel document

/-- The row of a message if it is linked to the channel. -/
def linkedRow (s : Store) (channel identifier : String) : Option MessageDb :=
  (s.messages identifier).filter fun row => row.channel = some channel

/-- The rows linked to the channel are those of the last changes that count. -/
def Mirrors (channel : String) (documentChanges : List DocumentChange) (s : Store) : Prop :=
  ∀ identifier, linkedRow s channel identifier =
    (lastCounting identifier documentChanges).bind (rowOf channel)

/-- Where a removal is the last change that counts, no change of the document
ever passed the guards. -/
def RemovedNeverWellFormed (documentChanges : List DocumentChange) : Prop :=
  ∀ identifier document, lastCounting identifier documentChanges = some document →
    document.type = .removed →
      ∀ other ∈ documentChanges, other.documentID = identifier → ¬ WellFormed other

/-- The listener of one screen called with the snapshots in the order of their delivery. -/
def deliver (channel : ChannelModel) (snapshots : List (List DocumentChange)) (s : Service) :
    Service :=
  snapshots.foldl (fun s documentChanges => updateMessages channel (some documentChanges) s) s

/-- What the listener saves of a message is the row it should have. -/
theorem fieldsOf_of_ofDocument {document : DocumentChange} {model : MessageModel}
    (h : MessageModel.ofDocument document = some model) (channel : String) :
    fieldsOf channel document = some (MessageDb.init model channel) := by
  simp only [MessageModel.ofDocument, Option.bind_eq_bind, Option.bind_eq_some_iff] at h
  obtain ⟨content, hcontent, -, -, created, hcreated, senderId, hsenderId,
    senderName, hsenderName, hmodel⟩ := h
  cases hmodel
  simp [fieldsOf, hcontent, hcreated, hsenderId, hsenderName, MessageDb.init]

theorem ofDocument_of_wellFormed {document : DocumentChange} (h : WellFormed document) :
    ∃ model, MessageModel.ofDocument document = some model :=
  Option.isSome_iff_exists.mp ((ofDocument_isSome document).mpr h)

theorem deliver_messages (channel : ChannelModel) (snapshots : List (List DocumentChange))
    (s : Service) : (deliver channel snapshots s).store.messages =
      replay s.store.messages (messageLog channel.identifier snapshots.flatten) := by
  induction snapshots generalizing s with
  | nil => rfl
  | cons documentChanges rest ih =>
    have hrest := ih (updateMessages channel (some documentChanges) s)
    rw [updateMessages_messages, ← replay_append] at hrest
    rw [List.flatten_cons, messageLog, List.filterMap_append]
    exact hrest

theorem lastWellFormed_eq_none_iff (identifier : String)
    (documentChanges : List DocumentChange) :
    lastWellFormed identifier documentChanges = none ↔
      ∀ document ∈ documentChanges, document.documentID = identifier → ¬ WellFormed document := by
  simp [lastWellFormed]

/-- The listener leaves the row of the last well-formed change, whatever its type. -/
theorem linkedRow_deliver (channel : ChannelModel) (snapshots : List (List DocumentChange))
    (s : Service)
    (hfresh : ∀ m row, s.store.messages m = some row → row.channel ≠ some channel.identifier)
    (identifier : String) :
    linkedRow (deliver channel snapshots s).store channel.identifier identifier =
      (lastWellFormed identifier snapshots.flatten).bind (fieldsOf channel.identifier) := by
  have hreplay := replay_filterMap DocumentChange.documentID
    (fun document => (MessageModel.ofDocument document).map fun model =>
      some (MessageDb.init model channel.identifier))
    s.store.messages snapshots.flatten identifier
  simp only [Option.isSome_map, ofDocument_isSome] at hreplay
  rw [linkedRow, deliver_messages, messageLog, hreplay]
  change Option.filter _ (((lastWellFormed identifier snapshots.flatten).bind _).getD _) = _
  cases hlast : lastWellFormed identifier snapshots.flatten with
  | none =>
    cases hrow : s.store.messages identifier with
    | none => rfl
    | some row => simp [hfresh identifier row hrow]
  | some document =>
    have hwf : WellFormed document := (of_decide_eq_true (findRev?_some hlast).1).2
    obtain ⟨model, hmodel⟩ := ofDocument_of_wellFormed hwf
    have hfields := fieldsOf_of_ofDocument hmodel channel.identifier
    simp [hfields, hmodel, MessageDb.init]

/-- The last change that counts is the last well-formed one, or a removal. -/
theorem lastCounting_cases (identifier : String) (documentChanges : List DocumentChange) :
    lastCounting identifier documentChanges = lastWellFormed identifier documentChanges ∨
      ∃ document, lastCounting identifier documentChanges = some document ∧
        document.type = .removed := by
  have hpq : ∀ document : DocumentChange,
      decide (document.documentID = identifier ∧ WellFormed document) = true →
      decide (document.documentID = identifier ∧ Counts document) = true := by
    intro document h
    have hwf := of_decide_eq_true h
    exact decide_eq_true ⟨hwf.1, Or.inr hwf.2⟩
  rcases findRev?_cases hpq documentChanges with heq | ⟨document, hlast, hnot⟩
  · exact Or.inl heq
  · have hcounts := of_decide_eq_true (findRev?_some hlast).1
    have hwf : ¬ WellFormed document := fun h => of_decide_eq_false hnot ⟨hcounts.1, h⟩
    exact Or.inr ⟨document, hlast, hcounts.2.resolve_right hwf⟩

theorem fieldsOf_lastWellFormed {channel identifier : String}
    {documentChanges : List DocumentChange} {document : DocumentChange}
    (h : lastWellFormed identifier documentChanges = some document) :
    fieldsOf channel document ≠ none := by
  have hwf : WellFormed document := (of_decide_eq_true (findRev?_some h).1).2
  obtain ⟨model, hmodel⟩ := ofDocument_of_wellFormed hwf
  rw [fieldsOf_of_ofDocument hmodel channel]
  exact Option.some_ne_none _

/-- The messages of the channel mirror the delivered changes exactly when no
document that is removed last was ever well-formed. -/
theorem messages_mirror_iff (channel : ChannelModel) (snapshots : List (List DocumentChange))
    (s : Service)
    (hfresh : ∀ m row, s.store.messages m = some row →
      row.channel ≠ some channel.identifier) :
    Mirrors channel.identifier snapshots.flatten (deliver channel snapshots s).store ↔
      RemovedNeverWellFormed snapshots.flatten := by
  have hrow := linkedRow_deliver channel snapshots s hfresh
  constructor
  · intro hmirrors identifier document hlast hr
    have h := hmirrors identifier
    rw [hrow, hlast, Option.bind_some, rowOf, if_pos hr] at h
    apply (lastWellFormed_eq_none_iff identifier snapshots.flatten).mp
    cases hwf : lastWellFormed identifier snapshots.flatten with
    | none => rfl
    | some other =>
      rw [hwf, Option.bind_some] at h
      exact absurd h (fieldsOf_lastWellFormed hwf)
  · intro hcond identifier
    rw [hrow]
    rcases lastCounting_cases identifier snapshots.flatten with heq | ⟨document, hlast, hr⟩
    · rw [heq]
      cases hwf : lastWellFormed identifier snapshots.flatten with
      | none => rfl
      | some document =>
        have hcounts := heq.trans hwf
        by_cases hr : document.type = .removed
        · have hnone := (lastWellFormed_eq_none_iff identifier snapshots.flatten).mpr
            (hcond identifier document hcounts hr)
          exact absurd (hwf.symm.trans hnone) (Option.some_ne_none _)
        · rw [Option.bind_some, Option.bind_some, rowOf, if_neg hr]
    · have hnone := (lastWellFormed_eq_none_iff identifier snapshots.flatten).mpr
        (hcond identifier document hlast hr)
      rw [hnone, hlast, Option.bind_some, rowOf, if_pos hr, Option.bind_none]

def general : ChannelModel := ⟨"c1", "General", none, none⟩

def helloFields : Fields := createMessage "u1" "hello" 5

def helloAdded : DocumentChange := ⟨.added, "m1", helloFields⟩

def helloRemoved : DocumentChange := ⟨.removed, "m1", helloFields⟩

theorem messages_mirror_hello :
    Mirrors "c1" [helloAdded] (deliver general [[helloAdded]] Service.empty).store := by
  refine (messages_mirror_iff general [[helloAdded]] Service.empty (by simp [Service.empty,
    Store.empty])).mpr ?_
  intro identifier document hlast hr
  have hmem : document ∈ [helloAdded] := (findRev?_some hlast).2
  fin_cases hmem
  cases hr

/-- A message that was added and then removed keeps its row. -/
theorem not_messages_mirror :
    ¬ ∀ (channel : ChannelModel) (snapshots : List (List DocumentChange)) (s : Service),
      (∀ m row, s.store.messages m = some row → row.channel ≠ some channel.identifier) →
      Mirrors channel.identifier snapshots.flatten (deliver channel snapshots s).store := by
  intro h
  have hmirrors := h general [[helloAdded], [helloRemoved]] Service.empty
    (by simp [Service.empty, Store.empty]) "m1"
  exact absurd hmirrors (by decide)

end TinkoffChat.MessageMirror

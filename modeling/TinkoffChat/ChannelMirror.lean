import TinkoffChat.FireStoreService
import Mathlib.Tactic.FinCases

/-!
The channel table after a run of channel snapshots. What the table should hold
is read off the delivered changes: a change counts when it is a removal or
carries a String name, and the last change that counts decides the row. The
listener asks for the name before it looks at the type, so a removal without
a name goes unheeded, and the exact condition for the table to be right follows.
-/
namespace TinkoffChat.ChannelMirror

open ChangeLog Documents LocalStore FireStoreService

def HasName (document : DocumentChange) : Prop := (document.data.string "name").isSome

instance (document : DocumentChange) : Decidable (HasName document) := by
  unfold HasName
  infer_instance

/-- An added or modified change whose name is not a String is ignored. -/
def Counts (document : DocumentChange) : Prop :=
  document.type = .removed ∨ HasName document

instance (document : DocumentChange) : Decidable (Counts document) := by
  unfold Counts
  infer_instance

/-- The last change delivered for the channel that counts. -/
def lastCounting (identifier : String) (documentChanges : List DocumentChange) :
    Option DocumentChange :=
  documentChanges.findRev? fun document => document.documentID = identifier ∧ Counts document

/-- The last change delivered for the channel whose name is a String. -/
def lastNamed (identifier : String) (documentChanges : List DocumentChange) :
    Option DocumentChange :=
  documentChanges.findRev? fun document => document.documentID = identifier ∧ HasName document

/-- The row a document should have: its name, which has to be a String, and its last
message and last activity where these are a String and a Timestamp. -/
def rowOfData (data : Fields) : Option ChannelDb :=
  (data.string "name").map fun name => {
    name := name
    lastMessage := data.string "lastMessage"
    lastActivity := (data.timestamp "lastActivity").map Timestamp.dateValue
  }

/-- The row a change should leave: none after a removal, else that of the document. -/
def rowOf (document : DocumentChange) : Option ChannelDb :=
  if document.type = .removed then none else rowOfData document.data

/-- The table holds, for every identifier, the row of the last change that counts. -/
def Mirrors (documentChanges : List DocumentChange) (channels : Table String ChannelDb) : Prop :=
  ∀ identifier, channels identifier = (lastCounting identifier documentChanges).bind rowOf

/-- When the last change that counts is a removal without a name, the last
named change of the channel, if any, is a removal too. -/
def NamelessRemovalsHarmless (documentChanges : List DocumentChange) : Prop :=
  ∀ identifier document, lastCounting identifier documentChanges = some document →
    document.type = .removed → ¬ HasName document →
      ∀ named, lastNamed identifier documentChanges = some named → named.type = .removed

/-- The listener called with the snapshots in the order of their delivery. -/
def deliver (snapshots : List (List DocumentChange)) (s : Service) : Service :=
  snapshots.foldl (fun s documentChanges => updateChannels (some documentChanges) s) s

/-- What the listener saves of a document is the row it should have. -/
theorem ofDocument_map_init (document : DocumentChange) :
    (ChannelModel.ofDocument document).map ChannelDb.init = rowOfData document.data := by
  rw [ChannelModel.ofDocument, rowOfData]
  cases document.data.string "name" <;> rfl

theorem channelRead_isSome (document : DocumentChange) :
    (channelRead document).isSome ↔ HasName document := by
  rw [channelRead, Option.isSome_map, ChannelModel.ofDocument_isSome, HasName]

theorem channelRead_of_hasName {document : DocumentChange} (h : HasName document) :
    channelRead document = some (rowOf document) := by
  have hsome : (ChannelModel.ofDocument document).isSome := by
    rw [ChannelModel.ofDocument_isSome]
    exact h
  obtain ⟨model, hmodel⟩ := Option.isSome_iff_exists.mp hsome
  by_cases hr : document.type = .removed <;>
    simp [channelRead, rowOf, ← ofDocument_map_init, hmodel, hr]

/-- Snapshots naming each document once are replayed change by change. -/
theorem deliver_channels (snapshots : List (List DocumentChange)) (s : Service)
    (hn : ∀ documentChanges ∈ snapshots,
      (documentChanges.map DocumentChange.documentID).Nodup) :
    (deliver snapshots s).store.channels =
      replay s.store.channels (channelLog snapshots.flatten) := by
  induction snapshots generalizing s with
  | nil => rfl
  | cons documentChanges rest ih =>
    have hfirst := hn documentChanges List.mem_cons_self
    have hrest := ih (updateChannels (some documentChanges) s)
      fun changes hc => hn changes (List.mem_cons_of_mem _ hc)
    rw [List.flatten_cons, channelLog_append, replay_append,
      ← updateChannels_channels_of_nodup hfirst]
    exact hrest

/-- What the listener leaves of a channel is the row of its last named change. -/
theorem replay_channelLog (documentChanges : List DocumentChange) (identifier : String) :
    replay (fun _ => none) (channelLog documentChanges) identifier =
      (lastNamed identifier documentChanges).bind rowOf := by
  have hreplay := replay_filterMap DocumentChange.documentID channelRead
    (fun _ => none) documentChanges identifier
  simp only [channelRead_isSome] at hreplay
  rw [channelLog, hreplay]
  change ((lastNamed identifier documentChanges).bind channelRead).getD none = _
  cases hlast : lastNamed identifier documentChanges with
  | none => rfl
  | some document =>
    have hname : HasName document := (of_decide_eq_true (findRev?_some hlast).1).2
    rw [Option.bind_some, channelRead_of_hasName hname, Option.getD_some, Option.bind_some]

/-- The last change that counts is the last named one, or a removal without a name. -/
theorem lastCounting_cases (identifier : String) (documentChanges : List DocumentChange) :
    lastCounting identifier documentChanges = lastNamed identifier documentChanges ∨
      ∃ document, lastCounting identifier documentChanges = some document ∧
        document.type = .removed ∧ ¬ HasName document := by
  have hpq : ∀ document : DocumentChange,
      decide (document.documentID = identifier ∧ HasName document) = true →
      decide (document.documentID = identifier ∧ Counts document) = true := by
    intro document h
    have hnamed := of_decide_eq_true h
    exact decide_eq_true ⟨hnamed.1, Or.inr hnamed.2⟩
  rcases findRev?_cases hpq documentChanges with heq | ⟨document, hlast, hnot⟩
  · exact Or.inl heq
  · have hcounts := of_decide_eq_true (findRev?_some hlast).1
    have hname : ¬ HasName document := fun h => of_decide_eq_false hnot ⟨hcounts.1, h⟩
    exact Or.inr ⟨document, hlast, hcounts.2.resolve_right hname, hname⟩

/-- The channel table mirrors the delivered changes exactly when no channel is
left standing by a removal without a name. -/
theorem channels_mirror_iff (snapshots : List (List DocumentChange)) (s : Service)
    (hempty : ∀ identifier, s.store.channels identifier = none)
    (hn : ∀ documentChanges ∈ snapshots,
      (documentChanges.map DocumentChange.documentID).Nodup) :
    Mirrors snapshots.flatten (deliver snapshots s).store.channels ↔
      NamelessRemovalsHarmless snapshots.flatten := by
  have htable : s.store.channels = fun _ => none := funext hempty
  have hrow : ∀ identifier, (deliver snapshots s).store.channels identifier =
      (lastNamed identifier snapshots.flatten).bind rowOf := by
    intro identifier
    rw [deliver_channels snapshots s hn, htable, replay_channelLog]
  constructor
  · intro hmirrors identifier document hlast hr hname named hnamed
    have h := hmirrors identifier
    rw [hrow, hlast, hnamed, Option.bind_some, Option.bind_some, rowOf, rowOf, if_pos hr] at h
    by_contra hnot
    have hread := channelRead_of_hasName (of_decide_eq_true (findRev?_some hnamed).1).2
    rw [rowOf, if_neg hnot] at hread
    rw [if_neg hnot] at h
    simp [channelRead, hnot, h] at hread
  · intro hcond identifier
    rw [hrow]
    rcases lastCounting_cases identifier snapshots.flatten with heq | ⟨document, hlast, hr, hname⟩
    · rw [heq]
    · rw [hlast, Option.bind_some, rowOf, if_pos hr]
      cases hnamed : lastNamed identifier snapshots.flatten with
      | none => rfl
      | some named =>
        rw [Option.bind_some, rowOf, if_pos (hcond identifier document hlast hr hname named hnamed)]

/-- A named channel, and then the changes that follow once its name is gone. -/
def generalAdded : DocumentChange :=
  ⟨.added, "c1", Fields.ofList [("name", .string "General")]⟩

def generalRenamed : DocumentChange :=
  ⟨.modified, "c1", Fields.ofList [("name", .string "Main"), ("lastMessage", .string "hi")]⟩

def generalUnnamed : DocumentChange := ⟨.modified, "c1", Fields.ofList []⟩

def generalRemoved : DocumentChange := ⟨.removed, "c1", Fields.ofList []⟩

theorem channels_mirror_renamed :
    Mirrors [generalAdded, generalRenamed]
      (deliver [[generalAdded], [generalRenamed]] Service.empty).store.channels := by
  refine (channels_mirror_iff [[generalAdded], [generalRenamed]] Service.empty
    (fun _ => rfl) ?_).mpr ?_
  · intro documentChanges hc
    fin_cases hc <;> simp
  · intro identifier document hlast hr
    have hmem : document ∈ [generalAdded, generalRenamed] := (findRev?_some hlast).2
    fin_cases hmem <;> cases hr

/-- The removal of a channel whose name was taken away leaves its row behind. -/
theorem not_channels_mirror :
    ¬ ∀ (snapshots : List (List DocumentChange)) (s : Service),
      (∀ identifier, s.store.channels identifier = none) →
      (∀ documentChanges ∈ snapshots,
        (documentChanges.map DocumentChange.documentID).Nodup) →
      Mirrors snapshots.flatten (deliver snapshots s).store.channels := by
  intro h
  have hmirrors := h [[generalAdded], [generalUnnamed], [generalRemoved]] Service.empty
    (fun _ => rfl) (by
      intro documentChanges hc
      fin_cases hc <;> simp) "c1"
  exact absurd hmirrors (by decide)

end TinkoffChat.ChannelMirror

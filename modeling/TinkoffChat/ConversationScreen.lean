import TinkoffChat.SendOrder
import TinkoffChat.SortedTables

/-!
The conversation screen. It shows what its fetch request finds: the stored messages
of the channel by their creation date, each with a cell for the user's own messages
or for those of others. The dates are readings of the senders' clocks, which need not
agree; what the screens of all users show of a conversation is one list by these dates,
less what has not been delivered to the user yet.
-/
namespace TinkoffChat.ConversationScreen

open ChangeLog Documents LocalStore PartialRuns Messaging SendOrder SortedTables

variable {User : Type*} [DecidableEq User]

/-- The stored messages that the predicate of the fetch request admits. -/
def admitted (identifier : String) (s : Store) : Table String MessageDb := fun m =>
  (s.messages m).filter fun row => row.channel = some identifier

/-- The objects of the fetched results controller: those the predicate admits, each once, by
the sort descriptor. Messages with the same date stand in any order. -/
def Fetched (identifier : String) (s : Store) (rows : List (String × MessageDb)) : Prop :=
  Listed MessageDb.created (admitted identifier s) rows

inductive Cell
  | my (content : String)
  | notMy (content senderName : String)
  deriving DecidableEq

def cellForRowAt (senderId : String) (message : MessageDb) : Cell :=
  if message.senderId = senderId then .my message.content
  else .notMy message.content message.senderName

def rowFor (senderId : User → String) (d : Sent User) : String × MessageDb :=
  (d.documentID, rowOf senderId d)

/-- The documents of the conversation, in the order of their arrival. -/
def documentsOf (identifier : String) (w : World User) : List (Sent User) :=
  w.documents.filter fun d => d.tap.identifier = identifier

/-- No two messages of the conversation bear the same date. -/
def DatesDiffer (identifier : String) (w : World User) : Prop :=
  ((documentsOf identifier w).map Sent.created).Nodup

instance (identifier : String) (w : World User) : Decidable (DatesDiffer identifier w) := by
  unfold DatesDiffer
  infer_instance

/-- All messages of the conversation by their dates. -/
def conversation (senderId : User → String) (identifier : String) (w : World User) :
    List (String × MessageDb) :=
  (sortedByCreated (documentsOf identifier w)).map (rowFor senderId)

/-- The messages of the conversation that were delivered to the user. -/
def deliveredTo (senderId : User → String) (user : User) (identifier : String)
    (w : World User) : List (String × MessageDb) :=
  (conversation senderId identifier w).filter fun row =>
    row.1 ∈ (w.delivered user).map Sent.documentID

variable {senderId : User → String} {w : World User} {user : User} {identifier : String}

theorem reachable_holds (h : Reachable (step senderId) World.init w) : Invariant senderId w :=
  reachable_invariant (init_invariant senderId) (fun _ _ _ hs h => step_invariant hs h) h

omit [DecidableEq User] in
theorem conversation_perm (senderId : User → String) (identifier : String) (w : World User) :
    (conversation senderId identifier w).Perm
      ((documentsOf identifier w).map (rowFor senderId)) :=
  (List.mergeSort_perm _ _).map _

omit [DecidableEq User] in
theorem conversation_sorted (senderId : User → String) (identifier : String) (w : World User) :
    (conversation senderId identifier w).Pairwise fun a b => a.2.created ≤ b.2.created := by
  rw [conversation, List.pairwise_map]
  exact sortedByCreated_pairwise _

omit [DecidableEq User] in
theorem conversation_nodup (hw : Invariant senderId w) (identifier : String) :
    ((conversation senderId identifier w).map Prod.fst).Nodup := by
  rw [((conversation_perm senderId identifier w).map Prod.fst).nodup_iff, List.map_map]
  exact hw.documentIDs_nodup.sublist (List.filter_sublist.map _)

omit [DecidableEq User] in
theorem mem_conversation {row : String × MessageDb} :
    row ∈ conversation senderId identifier w ↔
      ∃ d ∈ w.documents, d.tap.identifier = identifier ∧ rowFor senderId d = row := by
  rw [(conversation_perm senderId identifier w).mem_iff, List.mem_map]
  simp only [documentsOf, List.mem_filter, decide_eq_true_eq, and_assoc]

omit [DecidableEq User] in
theorem delivered_iff (hw : Invariant senderId w) (user : User) {d : Sent User}
    (hd : d ∈ w.documents) :
    d.documentID ∈ (w.delivered user).map Sent.documentID ↔ d ∈ w.delivered user := by
  constructor
  · intro hid
    obtain ⟨d', hd', hsame⟩ := List.mem_map.mp hid
    obtain rfl := List.inj_on_of_nodup_map hw.documentIDs_nodup
      (hw.delivered_sent user d' hd') hd hsame
    exact hd'
  · exact fun hmem => List.mem_map_of_mem hmem

omit [DecidableEq User] in
/-- The stored messages of the conversation are those delivered. -/
theorem mem_deliveredTo (hw : Invariant senderId w) (user : User) (identifier m : String)
    (row : MessageDb) : (m, row) ∈ deliveredTo senderId user identifier w ↔
      admitted identifier (w.service user).store m = some row := by
  rw [deliveredTo, List.mem_filter, mem_conversation, admitted, Option.filter_eq_some_iff]
  constructor
  · rintro ⟨⟨d, hd, hidentifier, heq⟩, hid⟩
    obtain ⟨rfl, rfl⟩ := Prod.mk.inj heq
    have hdelivered := (delivered_iff hw user hd).mp (of_decide_eq_true hid)
    exact ⟨hw.delivered_row user d hdelivered, decide_eq_true (congrArg some hidentifier)⟩
  · rintro ⟨hrow, hchannel⟩
    obtain ⟨d, hd, rfl⟩ := hw.row_delivered user m row hrow
    obtain rfl : rowOf senderId d = row :=
      Option.some.inj ((hw.delivered_row user d hd).symm.trans hrow)
    refine ⟨⟨d, hw.delivered_sent user d hd, ?_, rfl⟩, ?_⟩
    · exact Option.some.inj (of_decide_eq_true hchannel)
    · exact decide_eq_true (List.mem_map_of_mem hd)

omit [DecidableEq User] in
theorem deliveredTo_fetched (hw : Invariant senderId w) (user : User) (identifier : String) :
    Fetched identifier (w.service user).store (deliveredTo senderId user identifier w) where
  nodup := (conversation_nodup hw identifier).sublist (List.filter_sublist.map _)
  mem_iff := mem_deliveredTo hw user identifier
  sorted := (conversation_sorted senderId identifier w).filter _

omit [DecidableEq User] in
theorem deliveredTo_dates (h : DatesDiffer identifier w) (senderId : User → String)
    (user : User) :
    ((deliveredTo senderId user identifier w).map fun row => row.2.created).Nodup := by
  have hall : ((conversation senderId identifier w).map fun row => row.2.created).Nodup := by
    rw [((conversation_perm senderId identifier w).map _).nodup_iff, List.map_map]
    exact h
  exact hall.sublist (List.filter_sublist.map _)

theorem fetched_eq (h : Reachable (step senderId) World.init w)
    (hdates : DatesDiffer identifier w) {user : User} {rows : List (String × MessageDb)}
    (hrows : Fetched identifier (w.service user).store rows) :
    rows = deliveredTo senderId user identifier w :=
  ((deliveredTo_fetched (reachable_holds h) user identifier).eq_of_nodup hrows
    (deliveredTo_dates hdates senderId user)).symm

/-- Every screen shows the one list of the conversation, less what was not delivered to it,
up to exchanging messages with the same date. -/
theorem fetched_iff (h : Reachable (step senderId) World.init w) (user : User)
    (identifier : String) (rows : List (String × MessageDb)) :
    (Fetched identifier (w.service user).store rows ↔
      rows.Perm (deliveredTo senderId user identifier w) ∧
        rows.map (fun row => row.2.created) =
          (deliveredTo senderId user identifier w).map fun row => row.2.created) ∧
      (DatesDiffer identifier w → (Fetched identifier (w.service user).store rows ↔
        rows = deliveredTo senderId user identifier w)) := by
  have hshown := deliveredTo_fetched (reachable_holds h) user identifier
  refine ⟨hshown.listed_iff, fun hdates => ⟨fetched_eq h hdates, ?_⟩⟩
  rintro rfl
  exact hshown

def ids (user : Bool) : String := if user then "a" else "b"

/-- Two users write; the second one's clock is ahead, and that one's message, which is the
first to arrive, is not delivered to the first user. -/
def talk : List (Event Bool) := [
  .tap true "c1" "hello", .tap false "c1" "hi", .runBlock 1 9 "m1", .runBlock 0 5 "m2",
  .deliver true ⟨"c1", "General", none, none⟩ ["m2"],
  .deliver false ⟨"c1", "General", none, none⟩ ["m1", "m2"]]

def hi : Sent Bool := ⟨⟨false, "c1", "hi", 1⟩, "m1", 9⟩

def hello : Sent Bool := ⟨⟨true, "c1", "hello", 0⟩, "m2", 5⟩

theorem sortedByCreated_talk : sortedByCreated [hi, hello] = [hello, hi] := by
  simp [sortedByCreated, List.mergeSort, hi, hello]

theorem fetched_iff_talk : ∃ w, run (step ids) World.init talk = some w ∧
    DatesDiffer "c1" w ∧
      Fetched "c1" (w.service false).store [rowFor ids hello, rowFor ids hi] := by
  obtain ⟨w, hw, hdates, hdocuments, hdelivered⟩ : ∃ w, run (step ids) World.init talk = some w ∧
      DatesDiffer "c1" w ∧ documentsOf "c1" w = [hi, hello] ∧
        (w.delivered false).map Sent.documentID = ["m1", "m2"] :=
    ⟨_, rfl, by decide, rfl, rfl⟩
  have hrows : deliveredTo ids false "c1" w = [rowFor ids hello, rowFor ids hi] := by
    rw [deliveredTo, conversation, hdocuments, sortedByCreated_talk, hdelivered]
    decide
  exact ⟨w, hw, hdates, ((fetched_iff ⟨talk, hw⟩ false "c1" _).2 hdates).mpr hrows.symm⟩

/-- Two users never see two messages of a conversation in different orders: each shows the
other's list less what only the other has. -/
theorem screens_agree (h : Reachable (step senderId) World.init w)
    (hdates : DatesDiffer identifier w) {user other : User}
    {rows others : List (String × MessageDb)}
    (hrows : Fetched identifier (w.service user).store rows)
    (hothers : Fetched identifier (w.service other).store others) :
    (rows.filter fun row => row ∈ others) = others.filter fun row => row ∈ rows := by
  rw [fetched_eq h hdates hrows, fetched_eq h hdates hothers]
  simp only [deliveredTo, List.filter_filter, List.mem_filter]
  apply List.filter_congr
  intro row hrow
  simp only [hrow, true_and, Bool.decide_eq_true, Bool.and_comm]

/-- The documents of the conversation that were delivered to the user. -/
def shownTo (user : User) (identifier : String) (w : World User) : List (Sent User) :=
  (documentsOf identifier w).filter (· ∈ w.delivered user)

/-- The cell in which the user sees the text of a message. -/
def cellFor (user : User) (d : Sent User) : Cell :=
  if d.tap.user = user then .my d.tap.message else .notMy d.tap.message "Nikita Kazantsev"

theorem cellForRowAt_rowOf (hown : ∀ other, senderId other = senderId user → other = user)
    (d : Sent User) : cellForRowAt (senderId user) (rowOf senderId d) = cellFor user d := by
  by_cases hmine : d.tap.user = user
  · rw [cellFor, if_pos hmine]
    exact if_pos (congrArg senderId hmine)
  · rw [cellFor, if_neg hmine]
    exact if_neg fun hsame => hmine (hown _ hsame)

/-- The rows that a screen may show are those of the delivered documents, each once. -/
theorem rows_shownTo (hw : Invariant senderId w) {rows : List (String × MessageDb)}
    (hrows : Fetched identifier (w.service user).store rows) :
    rows.Perm ((shownTo user identifier w).map (rowFor senderId)) := by
  refine (hrows.perm (deliveredTo_fetched hw user identifier)).trans ?_
  refine ((conversation_perm senderId identifier w).filter _).trans (List.Perm.of_eq ?_)
  rw [List.filter_map, shownTo]
  congr 1
  apply List.filter_congr
  intro d hd
  simp only [Function.comp_apply, rowFor, delivered_iff hw user (List.mem_filter.mp hd).1]

end TinkoffChat.ConversationScreen

import Mathlib.Data.Int.Basic
import Mathlib.Data.List.DropRight
import Mathlib.Logic.Function.Basic
import Mathlib.Tactic.NormNum

/-!
Firestore documents as the snapshot listeners see them, and the guards that
turn a document into a channel or a message. A date is an exact count of
nanoseconds since 1970; the rounding of a machine double is not modelled.
-/
namespace TinkoffChat.Documents

/-- Nanoseconds since 1970. -/
abbrev Date := ℤ

structure Timestamp where
  seconds : ℤ
  nanoseconds : ℕ
  nanoseconds_lt : nanoseconds < 1000000000
  deriving DecidableEq

namespace Timestamp

/-- `Timestamp(date:)`: whole seconds downwards, the rest in nanoseconds. -/
def ofDate (date : Date) : Timestamp where
  seconds := date / 1000000000
  nanoseconds := (date % 1000000000).toNat
  nanoseconds_lt := (Int.toNat_lt' (by norm_num)).mpr (Int.emod_lt_of_pos date (by norm_num))

def dateValue (t : Timestamp) : Date := t.seconds * 1000000000 + t.nanoseconds

@[simp] theorem dateValue_ofDate (date : Date) : (ofDate date).dateValue = date := by
  have hnonneg : 0 ≤ date % 1000000000 := Int.emod_nonneg date (by norm_num)
  rw [dateValue, ofDate, Int.toNat_of_nonneg hnonneg]
  exact Int.ediv_mul_add_emod date 1000000000

end Timestamp

/-- A field's value. Only strings and timestamps are ever asked for; every
other Firestore type fails both casts. -/
inductive FieldValue
  | string (s : String)
  | timestamp (t : Timestamp)
  | other
  deriving DecidableEq

namespace FieldValue

/-- `as? String` -/
def string? : FieldValue → Option String
  | .string s => some s
  | _ => none

/-- `as? Timestamp` -/
def timestamp? : FieldValue → Option Timestamp
  | .timestamp t => some t
  | _ => none

end FieldValue

/-- The dictionary `data()` of a document. -/
abbrev Fields := String → Option FieldValue

namespace Fields

def ofList (pairs : List (String × FieldValue)) : Fields := fun key => pairs.lookup key

def string (data : Fields) (key : String) : Option String := (data key).bind FieldValue.string?

def timestamp (data : Fields) (key : String) : Option Timestamp :=
  (data key).bind FieldValue.timestamp?

end Fields

inductive DocumentChangeType
  | added
  | modified
  | removed
  deriving DecidableEq

structure DocumentChange where
  type : DocumentChangeType
  documentID : String
  data : Fields

/-- `CharacterSet.whitespaces`: the Unicode category Zs and the tabulation. -/
def whitespaces (c : Char) : Bool :=
  c.toNat = 0x09 || c.toNat = 0x20 || c.toNat = 0xA0 || c.toNat = 0x1680 ||
    (0x2000 ≤ c.toNat && c.toNat ≤ 0x200A) || c.toNat = 0x202F || c.toNat = 0x205F ||
    c.toNat = 0x3000

/-- `trimmingCharacters(in: .whitespaces)` -/
def trimmingCharacters (s : String) : String :=
  String.ofList ((s.toList.dropWhile whitespaces).rdropWhile whitespaces)

structure ChannelModel where
  identifier : String
  name : String
  lastMessage : Option String
  lastActivity : Option Date
  deriving DecidableEq

structure MessageModel where
  identifier : String
  content : String
  created : Date
  senderId : String
  senderName : String
  deriving DecidableEq

/-- The parsing half of the channel listener: only the name is required. -/
def ChannelModel.ofDocument (document : DocumentChange) : Option ChannelModel := do
  let name ← document.data.string "name"
  return {
    identifier := document.documentID
    name := name
    lastMessage := document.data.string "lastMessage"
    lastActivity := (document.data.timestamp "lastActivity").map Timestamp.dateValue
  }

/-- The parsing half of the message listener, guard by guard. -/
def MessageModel.ofDocument (document : DocumentChange) : Option MessageModel := do
  let content ← document.data.string "content"
  guard ((trimmingCharacters content).isEmpty = false)
  let timestamp ← document.data.timestamp "created"
  let senderId ← document.data.string "senderId"
  let senderName ← document.data.string "senderName"
  return {
    identifier := document.documentID
    content := content
    created := timestamp.dateValue
    senderId := senderId
    senderName := senderName
  }

theorem ChannelModel.ofDocument_isSome (document : DocumentChange) :
    (ChannelModel.ofDocument document).isSome = (document.data.string "name").isSome := by
  cases h : document.data.string "name" <;> simp [ChannelModel.ofDocument, h]

theorem ChannelModel.identifier_of_ofDocument {document : DocumentChange} {model : ChannelModel}
    (h : ChannelModel.ofDocument document = some model) :
    model.identifier = document.documentID := by
  simp only [ChannelModel.ofDocument, Option.bind_eq_bind, Option.bind_eq_some_iff] at h
  obtain ⟨name, -, hmodel⟩ := h
  cases hmodel
  rfl

theorem MessageModel.identifier_of_ofDocument {document : DocumentChange} {model : MessageModel}
    (h : MessageModel.ofDocument document = some model) :
    model.identifier = document.documentID := by
  simp only [MessageModel.ofDocument, Option.bind_eq_bind, Option.bind_eq_some_iff] at h
  obtain ⟨content, -, -, -, timestamp, -, senderId, -, senderName, -, hmodel⟩ := h
  cases hmodel
  rfl

end TinkoffChat.Documents

import Mathlib.Logic.Function.Basic

/-!
The profile on disk: a file each for the name, the description and the avatar.
Strings are encoded as UTF-8; the image codec of UIKit is a parameter. File
managers stand for anything that conforms to the protocol; `FileUtils` is the
one of the application, over the files of the documents directory.
-/
namespace TinkoffChat.ProfileFiles

abbrev Data := ByteArray

instance : DecidableEq Data := ByteArray.instDecidableEq

/-- `String.data(using: .utf8)`. -/
def data (s : String) : Option Data := some s.toUTF8

/-- `String(data:encoding: .utf8)`. -/
def string (d : Data) : Option String := String.fromUTF8? d

theorem string_toUTF8 (s : String) : string s.toUTF8 = some s := by
  have hvalid : s.toUTF8.IsValidUTF8 := s.isValidUTF8
  rw [string, String.fromUTF8?, dif_pos hvalid]
  rfl

/-- The image codec of the platform: `pngData()`, `UIImage(data:)`, `UIImage()` and
`UIImage(named:)`. -/
structure UIKit (Image : Type*) where
  pngData : Image → Option Data
  image : Data → Option Image
  blank : Image
  named : String → Option Image

variable {Image : Type*}

/-- `UIImage(data:)` of a PNG gives back the image. -/
def UIKit.RoundTrips (kit : UIKit Image) : Prop :=
  ∀ avatar png, kit.pngData avatar = some png → kit.image png = some avatar

/-- Images that are their own PNG data, and a blank one that has none. -/
def plainKit : UIKit (Option Data) := ⟨id, fun d => some (some d), none, fun _ => none⟩

structure ProfileViewModel (Image : Type*) where
  name : String
  description : String
  avatar : Image

inductive ProfileItemsTags
  | name | description | avatar
  deriving DecidableEq

def ProfileItemsTags.rawValue : ProfileItemsTags → String
  | .name => "PROFILE_name"
  | .description => "PROFILE_description"
  | .avatar => "PROFILE_avatar"

theorem rawValue_inj {a b : ProfileItemsTags} : a.rawValue = b.rawValue ↔ a = b := by
  cases a <;> cases b <;> decide

/-- `FileUtilsManagerProtocol`. How a single access to the disk goes is its last input. -/
structure FileUtilsManager (Disk Access : Type*) where
  save : Option Data → String → Access → Disk → Bool × Disk
  read : String → Access → Disk → Option Data

/-- An access to a file; a write that fails may leave anything in it. -/
inductive Access
  | succeeds
  | fails (left : Option Data)

abbrev Files := String → Option Data

namespace FileUtils

/-- `try data?.write(to:)` does nothing and throws nothing when there is no data. -/
def save (d : Option Data) (fileName : String) (access : Access) (files : Files) : Bool × Files :=
  match d, access with
  | none, _ => (true, files)
  | some d, .succeeds => (true, Function.update files fileName (some d))
  | some _, .fails left => (false, Function.update files fileName left)

def read (fileName : String) (access : Access) (files : Files) : Option Data :=
  match access with
  | .succeeds => files fileName
  | .fails _ => none

end FileUtils

def FileUtils : FileUtilsManager Files Access := ⟨FileUtils.save, FileUtils.read⟩

/-- The contents of the three files of the profile. -/
abbrev Contents := ProfileItemsTags → Option Data

def contents (files : Files) : Contents := fun tag => files tag.rawValue

theorem contents_update (files : Files) (tag : ProfileItemsTags) (d : Option Data) :
    contents (Function.update files tag.rawValue d) = Function.update (contents files) tag d := by
  funext other
  by_cases h : other = tag
  · subst h
    simp [contents]
  · have hraw : other.rawValue ≠ tag.rawValue := fun heq => h (rawValue_inj.mp heq)
    simp [contents, h, hraw]

/-- What a write leaves in its file, by what the file held before. -/
def left (d : Option Data) (access : Access) (prior : Option Data) : Option Data :=
  match d, access with
  | none, _ => prior
  | some d, .succeeds => some d
  | some _, .fails left => left

/-- A write leaves the same if it is made once more. -/
theorem left_left (d : Option Data) (access : Access) (prior : Option Data) :
    left d access (left d access prior) = left d access prior := by
  cases d with
  | none => rfl
  | some d => cases access <;> rfl

theorem save_disk (d : Option Data) (fileName : String) (access : Access) (files : Files) :
    (FileUtils.save d fileName access files).2 =
      Function.update files fileName (left d access (files fileName)) := by
  cases d with
  | none => exact (Function.update_eq_self fileName files).symm
  | some d => cases access <;> rfl

theorem contents_save (d : Option Data) (tag : ProfileItemsTags) (access : Access)
    (files : Files) :
    contents (FileUtils.save d tag.rawValue access files).2 =
      Function.update (contents files) tag (left d access (contents files tag)) := by
  rw [save_disk, contents_update, contents]

/-- The data that a save hands to its three write operations. -/
def encoding (kit : UIKit Image) (profile : ProfileViewModel Image) : Contents
  | .name => data profile.name
  | .description => data profile.description
  | .avatar => kit.pngData profile.avatar

/-- What the writes of a save leave in the files. -/
def saved (kit : UIKit Image) (profile : ProfileViewModel Image)
    (writes : ProfileItemsTags → Access) (prior : Contents) : Contents :=
  fun tag => left (encoding kit profile tag) (writes tag) (prior tag)

/-- The profile made of the contents of the three files; none of them may be missing. -/
def profileOf (kit : UIKit Image) (c : Contents) : Option (ProfileViewModel Image) :=
  match c .name, c .description, c .avatar with
  | some nameData, some descriptionData, some avatarData =>
    match string nameData, string descriptionData with
    | some name, some description =>
      some ⟨name, description, (kit.image avatarData).getD kit.blank⟩
    | _, _ => none
  | _, _, _ => none

theorem profileOf_eq (kit : UIKit Image) (c : Contents) :
    profileOf kit c =
      ((c .name).bind string).bind fun name =>
        ((c .description).bind string).bind fun description =>
          (c .avatar).map fun avatarData =>
            ⟨name, description, (kit.image avatarData).getD kit.blank⟩ := by
  rw [profileOf]
  cases c .name with
  | none => rfl
  | some nameData =>
    cases c .description with
    | none => cases hname : string nameData <;> simp [hname]
    | some descriptionData =>
      cases c .avatar <;> cases hname : string nameData <;>
        cases hdescription : string descriptionData <;> simp [hname, hdescription]

theorem profileOf_present {kit : UIKit Image} {c : Contents} {profile : ProfileViewModel Image}
    (h : profileOf kit c = some profile) (tag : ProfileItemsTags) : c tag ≠ none := by
  intro hnone
  cases tag <;> simp [profileOf, hnone] at h

/-- Where contents have a profile, others that hold the same data have that profile. -/
theorem profileOf_of_agree {kit : UIKit Image} {c src : Contents}
    {profile : ProfileViewModel Image} (h : ∀ tag, c tag = none ∨ c tag = src tag)
    (hprofile : profileOf kit c = some profile) : profileOf kit src = some profile := by
  have heq : c = src := funext fun tag => (h tag).resolve_left (profileOf_present hprofile tag)
  rw [← heq]
  exact hprofile

/-- Only the avatar of a saved profile may be missing. -/
theorem profileOf_encoding_or (kit : UIKit Image) (profile : ProfileViewModel Image)
    (prior : Contents) :
    profileOf kit (fun tag => (encoding kit profile tag).or (prior tag)) =
      ((kit.pngData profile.avatar).or (prior .avatar)).map fun avatarData =>
        ⟨profile.name, profile.description, (kit.image avatarData).getD kit.blank⟩ := by
  cases h : (kit.pngData profile.avatar).or (prior .avatar) with
  | none => simp only [profileOf, encoding, data, Option.some_or, h, Option.map_none]
  | some avatarData =>
    simp only [profileOf, encoding, data, Option.some_or, h, string_toUTF8, Option.map_some]

end TinkoffChat.ProfileFiles

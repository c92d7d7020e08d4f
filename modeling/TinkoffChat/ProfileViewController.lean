import TinkoffChat.ProfileFiles

/-!
The profile screen: its state, its labels and buttons, and what it has put on
top of itself. It accepts an event of the user only where the control takes it,
and may then ask the user data store for something. Images are compared as the
objects they are. Presenting over something already presented does nothing.
-/
namespace TinkoffChat.ProfileViewController

open ProfileFiles

inductive ProfileViewState
  | base | view | editing | hasChanges | saving
  deriving DecidableEq

/-- The action sheet of the avatar, the two pickers, and the alerts for a save that
succeeded or failed. -/
inductive Presented
  | avatarChangeActionSheet | imagePicker | networkImagePicker | success | error
  deriving DecidableEq

structure Screen (Image : Type*) where
  currentState : ProfileViewState
  profileModel : Option (ProfileViewModel Image)
  nameLabel : String
  descriptionLabel : String
  avatarImageView : Option Image
  editButtonIsHidden : Bool
  cancelButtonIsHidden : Bool
  saveButtonsIsHidden : Bool
  saveButtonIsEnabled : Bool
  nameLabelIsEnabled : Bool
  descriptionLabelIsEditable : Bool
  presented : Option Presented

variable {Image : Type*}

/-- What the screen asks of the user data store. -/
inductive Request (Image : Type*)
  | saveProfile (profile : ProfileViewModel Image)
  | cancelAllOperations

def Screen.storyboard (kit : UIKit Image) : Screen Image :=
  ⟨.base, none, "", "Moscow, Russia, UI/UX", kit.named "avatar2", false, false, false, true, true,
    true, none⟩

def setupProfile (profile : Option (ProfileViewModel Image)) (s : Screen Image) : Screen Image :=
  { s with
    avatarImageView := (profile.map ProfileViewModel.avatar).or s.avatarImageView
    nameLabel := (profile.map ProfileViewModel.name).getD ""
    descriptionLabel := (profile.map ProfileViewModel.description).getD "" }

def changeView (state : ProfileViewState) (s : Screen Image) : Screen Image :=
  if s.currentState = state then s
  else match state with
    | .base => { s with currentState := .base }
    | .view => { s with
        currentState := .view
        editButtonIsHidden := false
        cancelButtonIsHidden := true
        saveButtonsIsHidden := true
        nameLabelIsEnabled := false
        descriptionLabelIsEditable := false }
    | .editing => { s with
        currentState := .editing
        editButtonIsHidden := true
        cancelButtonIsHidden := false
        saveButtonsIsHidden := false
        saveButtonIsEnabled := false
        nameLabelIsEnabled := true
        descriptionLabelIsEditable := true }
    | .hasChanges => { s with currentState := .hasChanges, saveButtonIsEnabled := true }
    | .saving => { s with currentState := .saving, saveButtonIsEnabled := false }

def viewDidLoad (kit : UIKit Image) (profile : Option (ProfileViewModel Image)) : Screen Image :=
  changeView .view (setupProfile profile (.storyboard kit))

def present (presented : Presented) (s : Screen Image) : Screen Image :=
  { s with presented := s.presented.or (some presented) }

section Checked

variable [DecidableEq Image]

def hasDataChanges (s : Screen Image) : Bool :=
  s.profileModel.map ProfileViewModel.name ≠ some s.nameLabel ||
    s.profileModel.map ProfileViewModel.description ≠ some s.descriptionLabel ||
    s.profileModel.map ProfileViewModel.avatar ≠ s.avatarImageView

def checkProfileDataForChanges (s : Screen Image) : Screen Image :=
  changeView (if hasDataChanges s then .hasChanges else .editing) s

end Checked

/-- The profile that saveProfileChanges makes of the labels. -/
def newProfile (kit : UIKit Image) (s : Screen Image) : ProfileViewModel Image :=
  ⟨s.nameLabel, s.descriptionLabel, (s.avatarImageView.or (kit.named "avatar2")).getD kit.blank⟩

def saveProfileChanges (kit : UIKit Image) (s : Screen Image) :
    Screen Image × Option (Request Image) :=
  (changeView .saving s, some (.saveProfile (newProfile kit s)))

def cancelButtonTapped (profile : Option (ProfileViewModel Image)) (s : Screen Image) :
    Screen Image × Option (Request Image) :=
  (changeView .view { s with
    avatarImageView := profile.map ProfileViewModel.avatar
    nameLabel := (profile.map ProfileViewModel.name).getD ""
    descriptionLabel := (profile.map ProfileViewModel.description).getD "" },
   if s.currentState = .saving then some .cancelAllOperations else none)

def saveButtonTapped (kit : UIKit Image) (s : Screen Image) :
    Screen Image × Option (Request Image) :=
  match s.currentState with
  | .base | .editing | .saving => (s, none)
  | .view => (changeView .editing s, none)
  | .hasChanges => saveProfileChanges kit s

/-- `imagePickerController(_:didFinishPickingMediaWithInfo:)` -/
def imagePickerController (image : Image) (s : Screen Image) : Screen Image :=
  { changeView .hasChanges (changeView .editing s) with
    avatarImageView := some image, presented := none }

/-- `imagePicker(_:didSelectedImage:)`, after which the picker is dismissed. -/
def imagePicker (kit : UIKit Image) (image : Option Image) (s : Screen Image) :
    Screen Image × Option (Request Image) :=
  saveProfileChanges kit { s with avatarImageView := image, presented := none }

inductive UserEvent (Image : Type*)
  | editButton
  | cancelButton
  | saveButton
  | nameChanged (text : String)
  | nameReturned
  | descriptionChanged (text : String)
  | avatar
  | choose (picker : Presented)
  | dismiss
  | imagePicked (image : Image)
  | networkImagePicked (image : Image)
  | ok
  | retry

/-- An event of the user with the profile in the user data store; `none` where the
screen does not accept it. -/
def handle [DecidableEq Image] (kit : UIKit Image) (profile : Option (ProfileViewModel Image))
    (s : Screen Image) : UserEvent Image → Option (Screen Image × Option (Request Image))
  | .editButton =>
    if s.presented = none ∧ s.editButtonIsHidden = false then some (changeView .editing s, none)
    else none
  | .cancelButton =>
    if s.presented = none ∧ s.cancelButtonIsHidden = false then
      some (cancelButtonTapped profile s)
    else none
  | .saveButton =>
    if s.presented = none ∧ s.saveButtonsIsHidden = false ∧ s.saveButtonIsEnabled then
      some (saveButtonTapped kit s)
    else none
  | .nameChanged text =>
    if s.presented = none ∧ s.nameLabelIsEnabled then
      some (checkProfileDataForChanges { s with nameLabel := text }, none)
    else none
  | .nameReturned =>
    if s.presented = none ∧ s.nameLabelIsEnabled then some (checkProfileDataForChanges s, none)
    else none
  | .descriptionChanged text =>
    if s.presented = none ∧ s.descriptionLabelIsEditable then
      some (checkProfileDataForChanges { s with descriptionLabel := text }, none)
    else none
  | .avatar =>
    if s.presented = none then some (present .avatarChangeActionSheet s, none) else none
  | .choose picker =>
    if s.presented = some .avatarChangeActionSheet ∧
        (picker = .imagePicker ∨ picker = .networkImagePicker) then
      some ({ s with presented := some picker }, none)
    else none
  | .dismiss =>
    if s.presented = some .avatarChangeActionSheet ∨ s.presented = some .imagePicker ∨
        s.presented = some .networkImagePicker then
      some ({ s with presented := none }, none)
    else none
  | .imagePicked image =>
    if s.presented = some .imagePicker then some (imagePickerController image s, none) else none
  | .networkImagePicked image =>
    if s.presented = some .networkImagePicker then some (imagePicker kit (some image) s) else none
  | .ok =>
    if s.presented = some .success then some (changeView .view { s with presented := none }, none)
    else if s.presented = some .error then some ({ s with presented := none }, none)
    else none
  | .retry =>
    if s.presented = some .error then some (saveProfileChanges kit { s with presented := none })
    else none

/-- What the completion of a save puts on the main queue does to the screen. -/
def completed (success : Bool) (s : Screen Image) : Screen Image :=
  if success then present .success s else present .error (changeView .view s)

@[simp] theorem changeView_currentState (state : ProfileViewState) (s : Screen Image) :
    (changeView state s).currentState = state := by
  unfold changeView
  split
  · assumption
  · cases state <;> rfl

@[simp] theorem changeView_presented (state : ProfileViewState) (s : Screen Image) :
    (changeView state s).presented = s.presented := by
  unfold changeView
  split
  · rfl
  · cases state <;> rfl

@[simp] theorem changeView_nameLabel (state : ProfileViewState) (s : Screen Image) :
    (changeView state s).nameLabel = s.nameLabel := by
  unfold changeView
  split
  · rfl
  · cases state <;> rfl

@[simp] theorem changeView_descriptionLabel (state : ProfileViewState) (s : Screen Image) :
    (changeView state s).descriptionLabel = s.descriptionLabel := by
  unfold changeView
  split
  · rfl
  · cases state <;> rfl

@[simp] theorem changeView_avatarImageView (state : ProfileViewState) (s : Screen Image) :
    (changeView state s).avatarImageView = s.avatarImageView := by
  unfold changeView
  split
  · rfl
  · cases state <;> rfl

theorem checkProfileDataForChanges_ne [DecidableEq Image] {state : ProfileViewState}
    (hchanges : .hasChanges ≠ state) (hediting : .editing ≠ state) (s : Screen Image) :
    (checkProfileDataForChanges s).currentState ≠ state := by
  rw [checkProfileDataForChanges, changeView_currentState]
  split
  · exact hchanges
  · exact hediting

end TinkoffChat.ProfileViewController

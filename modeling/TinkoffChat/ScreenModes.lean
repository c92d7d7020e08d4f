import TinkoffChat.ScreenSaves

/-!
The profile screen as its user sees it: a mode that decides which controls take
an event, what is presented, and the saves under way. The controls of the screen
follow its mode in every state it can reach, so the screen accepts exactly the
events that the modes accept, and whatever has happened the user can leave what
is going on in a few events.
-/
namespace TinkoffChat.ScreenModes

open PartialRuns ProfileFiles ProfileViewController ScreenSaves

/-- While it saves the screen keeps the controls it had before. -/
inductive Mode
  | view | editing | hasChanges
  | saving (editable : Bool)
  deriving DecidableEq

namespace Mode

def editable : Mode → Bool
  | view => false
  | editing | hasChanges => true
  | saving editable => editable

def state : Mode → ProfileViewState
  | view => .view
  | editing => .editing
  | hasChanges => .hasChanges
  | saving _ => .saving

end Mode

structure Modes where
  mode : Mode
  presented : Option Presented
  outstanding : List Bool
  main : List Bool

namespace Modes

def loaded : Modes := ⟨.view, none, [], []⟩

def save (m : Modes) : Modes :=
  { m with mode := .saving m.mode.editable, outstanding := m.outstanding ++ [false] }

def cancelAll (m : Modes) : Modes := { m with outstanding := m.outstanding.map fun _ => true }

/-- What the user does. Text is only ever found to have changed. -/
def user {Image : Type*} (m : Modes) : UserEvent Image → Option Modes
  | .editButton =>
    if m.presented = none ∧ m.mode.editable = false then some { m with mode := .editing } else none
  | .cancelButton =>
    if m.presented = none ∧ m.mode.editable = true then
      some { if m.mode.state = .saving then m.cancelAll else m with mode := .view }
    else none
  | .saveButton =>
    if m.presented = none ∧ m.mode = .hasChanges then some m.save else none
  | .nameChanged _ | .nameReturned | .descriptionChanged _ =>
    if m.presented = none ∧ m.mode.editable = true then some { m with mode := .hasChanges }
    else none
  | .avatar =>
    if m.presented = none then some { m with presented := some .avatarChangeActionSheet }
    else none
  | .choose picker =>
    if m.presented = some .avatarChangeActionSheet ∧
        (picker = .imagePicker ∨ picker = .networkImagePicker) then
      some { m with presented := some picker }
    else none
  | .dismiss =>
    if m.presented = some .avatarChangeActionSheet ∨ m.presented = some .imagePicker ∨
        m.presented = some .networkImagePicker then
      some { m with presented := none }
    else none
  | .imagePicked _ =>
    if m.presented = some .imagePicker then some { m with mode := .hasChanges, presented := none }
    else none
  | .networkImagePicked _ =>
    if m.presented = some .networkImagePicker then some { m.save with presented := none } else none
  | .ok =>
    if m.presented = some .success then some { m with mode := .view, presented := none }
    else if m.presented = some .error then some { m with presented := none }
    else none
  | .retry =>
    if m.presented = some .error then some { m.save with presented := none } else none

def next {Image : Type*} (m : Modes) : Event Image → Option Modes
  | .user event => m.user event
  | .viewWillDisappear => some m.cancelAll
  | .stored _ => some m
  | .completed save success => m.outstanding[save]?.map fun _ =>
      { m with outstanding := m.outstanding.eraseIdx save, main := m.main ++ [success] }
  | .dropped save =>
    if m.outstanding[save]? = some true then
      some { m with outstanding := m.outstanding.eraseIdx save }
    else none
  | .main => match m.main with
    | [] => none
    | true :: rest => some { m with presented := m.presented.or (some .success), main := rest }
    | false :: rest =>
      some { m with mode := .view, presented := m.presented.or (some .error), main := rest }

end Modes

variable {Image : Type*}

/-- The controls are as the mode has them. The save button does not show in the mode of
viewing, and then it may be as it was. -/
structure Controls (mode : Mode) (s : Screen Image) : Prop where
  state : s.currentState = mode.state
  edit : s.editButtonIsHidden = mode.editable
  cancel : s.cancelButtonIsHidden = !mode.editable
  save : s.saveButtonsIsHidden = !mode.editable
  name : s.nameLabelIsEnabled = mode.editable
  description : s.descriptionLabelIsEditable = mode.editable
  enabled : mode ≠ .view → s.saveButtonIsEnabled = decide (mode = .hasChanges)
  model : s.profileModel = none

/-- The world shows the modes. -/
structure Shows (w : World Image) (m : Modes) : Prop where
  controls : Controls m.mode w.screen
  presented : w.screen.presented = m.presented
  outstanding : w.outstanding = m.outstanding
  main : w.main = m.main

variable {s : Screen Image} {mode : Mode} {w : World Image} {m : Modes}

section Controls

/-- What is shown in the controls, and over them, is not what they are like. -/
theorem Controls.shown (h : Controls mode s) (name description : String) (avatar : Option Image)
    (presented : Option Presented) :
    Controls mode { s with
      nameLabel := name
      descriptionLabel := description
      avatarImageView := avatar
      presented := presented } :=
  ⟨h.state, h.edit, h.cancel, h.save, h.name, h.description, h.enabled, h.model⟩

theorem controls_view (h : Controls mode s) : Controls .view (changeView .view s) := by
  unfold changeView
  split
  · rename_i hstate
    obtain rfl : mode = .view := by
      rw [h.state] at hstate
      cases mode <;> first | rfl | cases hstate
    exact h
  · exact ⟨rfl, rfl, rfl, rfl, rfl, rfl, fun hne => absurd rfl hne, h.model⟩

theorem controls_editing (h : Controls mode s) : Controls .editing (changeView .editing s) := by
  unfold changeView
  split
  · rename_i hstate
    obtain rfl : mode = .editing := by
      rw [h.state] at hstate
      cases mode <;> first | rfl | cases hstate
    exact h
  · exact ⟨rfl, rfl, rfl, rfl, rfl, rfl, fun _ => by simp, h.model⟩

/-- Changes are found only where the controls are those of editing. -/
theorem controls_hasChanges (h : Controls mode s) (heditable : mode.editable = true) :
    Controls .hasChanges (changeView .hasChanges s) := by
  unfold changeView
  split
  · rename_i hstate
    obtain rfl : mode = .hasChanges := by
      rw [h.state] at hstate
      cases mode <;> first | rfl | cases hstate
    exact h
  · obtain ⟨-, hedit, hcancel, hsave, hname, hdescription, -, hmodel⟩ := h
    rw [heditable] at hedit hcancel hsave hname hdescription
    exact ⟨rfl, hedit, hcancel, hsave, hname, hdescription, fun _ => by simp, hmodel⟩

theorem controls_saving (h : Controls mode s) :
    Controls (.saving mode.editable) (changeView .saving s) := by
  unfold changeView
  split
  · rename_i hstate
    obtain ⟨b, rfl⟩ : ∃ b, mode = .saving b := by
      rw [h.state] at hstate
      cases mode with
      | saving b => exact ⟨b, rfl⟩
      | view => cases hstate
      | editing => cases hstate
      | hasChanges => cases hstate
    exact h
  · exact ⟨rfl, h.edit, h.cancel, h.save, h.name, h.description, fun _ => by simp, h.model⟩

/-- The screen has no profile of its own to compare with, so a check finds changes. -/
theorem controls_checked [DecidableEq Image] (h : Controls mode s)
    (heditable : mode.editable = true) :
    Controls .hasChanges (checkProfileDataForChanges s) := by
  have hchanges : hasDataChanges s = true := by simp [hasDataChanges, h.model]
  rw [checkProfileDataForChanges, if_pos hchanges]
  exact controls_hasChanges h heditable

end Controls

section Refinement

variable {kit : UIKit Image} {profile : Option (ProfileViewModel Image)}

/-- The result of an event of the user, with the request it makes. -/
def ShowsResult (w : World Image) (result : Screen Image × Option (Request Image)) (m : Modes) :
    Prop :=
  Shows (request { w with screen := result.1 } result.2) m

theorem showsResult_none (hw : Shows w m) (hcontrols : Controls mode s)
    {presented : Option Presented} (hpresented : s.presented = presented) :
    ShowsResult w (s, none) { m with mode := mode, presented := presented } :=
  ⟨hcontrols, hpresented, hw.outstanding, hw.main⟩

theorem showsResult_save (hw : Shows w m) (hs : Controls m.mode s)
    {presented : Option Presented} (hpresented : s.presented = presented) :
    ShowsResult w (saveProfileChanges kit s) { m.save with presented := presented } := by
  refine ⟨controls_saving hs, ?_, congrArg (· ++ [false]) hw.outstanding, hw.main⟩
  exact (changeView_presented .saving s).trans hpresented

theorem showsResult_cancel (hw : Shows w m) :
    ShowsResult w (cancelButtonTapped profile w.screen)
      { if m.mode.state = .saving then m.cancelAll else m with mode := .view } := by
  have hcontrols := controls_view (hw.controls.shown
    ((profile.map ProfileViewModel.name).getD "")
    ((profile.map ProfileViewModel.description).getD "") (profile.map ProfileViewModel.avatar)
    w.screen.presented)
  by_cases hsaving : w.screen.currentState = .saving
  · rw [cancelButtonTapped, if_pos hsaving, if_pos (hw.controls.state ▸ hsaving)]
    exact ⟨hcontrols, (changeView_presented ..).trans hw.presented,
      congrArg (List.map fun _ => true) hw.outstanding, hw.main⟩
  · rw [cancelButtonTapped, if_neg hsaving, if_neg (hw.controls.state ▸ hsaving)]
    exact ⟨hcontrols, (changeView_presented ..).trans hw.presented, hw.outstanding, hw.main⟩

theorem checkProfileDataForChanges_presented [DecidableEq Image] (s : Screen Image) :
    (checkProfileDataForChanges s).presented = s.presented :=
  changeView_presented _ s

/-- The save button takes a tap only where there are changes. -/
theorem saveButton_iff (h : Controls mode s) :
    s.saveButtonsIsHidden = false ∧ s.saveButtonIsEnabled = true ↔ mode = .hasChanges := by
  cases mode with
  | view => simp [h.save, Mode.editable]
  | editing => simp [h.save, h.enabled, Mode.editable]
  | hasChanges => simp [h.save, h.enabled, Mode.editable]
  | saving editable => simp [h.enabled]

variable [DecidableEq Image]

/-- The screen accepts what the modes accept of the user. -/
theorem handle_rel (hw : Shows w m) (e : UserEvent Image) :
    Option.Rel (ShowsResult w) (handle kit w.profile w.screen e) (m.user e) := by
  have hpresented := hw.presented
  cases e with
  | editButton =>
    refine rel_ite (by rw [hpresented, hw.controls.edit]) fun h => ?_
    exact showsResult_none hw (controls_editing hw.controls)
      ((changeView_presented ..).trans hpresented)
  | cancelButton =>
    refine rel_ite (by rw [hpresented, hw.controls.cancel]; simp) fun h => ?_
    exact showsResult_cancel hw
  | saveButton =>
    refine rel_ite (by rw [hpresented, saveButton_iff hw.controls]) fun h => ?_
    have hstate : w.screen.currentState = .hasChanges := by rw [hw.controls.state, h.2, Mode.state]
    rw [saveButtonTapped, hstate]
    exact showsResult_save hw hw.controls hpresented
  | nameChanged text =>
    refine rel_ite (by rw [hpresented, hw.controls.name]) fun h => ?_
    exact showsResult_none hw (controls_checked (hw.controls.shown ..) h.2)
      ((checkProfileDataForChanges_presented _).trans hpresented)
  | nameReturned =>
    refine rel_ite (by rw [hpresented, hw.controls.name]) fun h => ?_
    exact showsResult_none hw (controls_checked hw.controls h.2)
      ((checkProfileDataForChanges_presented _).trans hpresented)
  | descriptionChanged text =>
    refine rel_ite (by rw [hpresented, hw.controls.description]) fun h => ?_
    exact showsResult_none hw (controls_checked (hw.controls.shown ..) h.2)
      ((checkProfileDataForChanges_presented _).trans hpresented)
  | avatar =>
    refine rel_ite (by rw [hpresented]) fun h => ?_
    refine showsResult_none hw (hw.controls.shown ..) ?_
    rw [hpresented, h, Option.none_or]
  | choose picker =>
    refine rel_ite (by rw [hpresented]) fun h => ?_
    exact showsResult_none hw (hw.controls.shown ..) rfl
  | dismiss =>
    refine rel_ite (by rw [hpresented]) fun h => ?_
    exact showsResult_none hw (hw.controls.shown ..) rfl
  | imagePicked image =>
    refine rel_ite (by rw [hpresented]) fun h => ?_
    exact showsResult_none hw
      ((controls_hasChanges (controls_editing hw.controls) rfl).shown ..) rfl
  | networkImagePicked image =>
    refine rel_ite (by rw [hpresented]) fun h => ?_
    exact showsResult_save hw (hw.controls.shown ..) rfl
  | ok =>
    simp only [handle, Modes.user, hpresented]
    split
    · exact .some (showsResult_none hw (controls_view (hw.controls.shown ..))
        (changeView_presented ..))
    · refine rel_ite Iff.rfl fun h => ?_
      exact showsResult_none hw (hw.controls.shown ..) rfl
  | retry =>
    refine rel_ite (by rw [hpresented]) fun h => ?_
    exact showsResult_save hw (hw.controls.shown ..) rfl

theorem step_rel (kit : UIKit Image) (w : World Image) (m : Modes) (e : Event Image)
    (hw : Shows w m) : Option.Rel Shows (step kit w e) (m.next e) := by
  have ⟨hcontrols, hpresented, houtstanding, hmain⟩ := hw
  cases e with
  | user event => exact rel_map_left (handle_rel hw event)
  | viewWillDisappear =>
    exact .some ⟨hcontrols, hpresented, congrArg (List.map fun _ => true) houtstanding, hmain⟩
  | stored profile => exact .some ⟨hcontrols, hpresented, houtstanding, hmain⟩
  | completed save success =>
    simp only [step, Modes.next, houtstanding, hmain]
    cases m.outstanding[save]? with
    | none => exact .none
    | some cancelled => exact .some ⟨hcontrols, hpresented, rfl, rfl⟩
  | dropped save =>
    simp only [step, Modes.next, houtstanding]
    exact rel_ite Iff.rfl fun _ => ⟨hcontrols, hpresented, rfl, hmain⟩
  | main =>
    simp only [step, Modes.next, hmain]
    cases m.main with
    | nil => exact .none
    | cons success rest =>
      cases success with
      | true => exact .some ⟨hcontrols.shown .., congrArg (Option.or · _) hpresented, houtstanding, rfl⟩
      | false =>
        refine .some ⟨(controls_view hcontrols).shown .., ?_, houtstanding, rfl⟩
        exact congrArg (Option.or · _) ((changeView_presented ..).trans hpresented)

omit [DecidableEq Image] in
theorem loaded_shows (kit : UIKit Image) (profile : Option (ProfileViewModel Image)) :
    Shows (World.loaded kit profile) Modes.loaded :=
  ⟨⟨rfl, rfl, rfl, rfl, rfl, rfl, fun h => absurd rfl h, rfl⟩, rfl, rfl, rfl⟩

/-- The screen accepts the sequences of events that the modes accept, and no others, and its
controls are always those of the mode. -/
theorem run_shows (kit : UIKit Image) (profile : Option (ProfileViewModel Image))
    (es : List (Event Image)) :
    Option.Rel Shows (run (step kit) (World.loaded kit profile) es)
      (run Modes.next Modes.loaded es) :=
  run_rel (fun w m e hw => step_rel kit w m e hw) (loaded_shows kit profile) es

end Refinement

section Ways

/-- Out of what is presented. -/
def close : Option Presented → List (UserEvent Image)
  | none => []
  | some .success | some .error => [.ok]
  | some _ => [.dismiss]

/-- Into the controls of editing. -/
def edit (mode : Mode) : List (UserEvent Image) :=
  if mode.editable then [] else [.editButton]

/-- The mode that is left when nothing is presented any more. -/
def closed (m : Modes) : Modes :=
  { m with mode := if m.presented = some .success then .view else m.mode, presented := none }

theorem run_close (m : Modes) :
    run Modes.next m ((close m.presented : List (UserEvent Image)).map .user) = some (closed m) := by
  obtain ⟨mode, presented, outstanding, main⟩ := m
  cases presented with
  | none => rfl
  | some presented => cases presented <;> rfl

/-- The mode that is left when the controls are those of editing. -/
def edited (mode : Mode) : Mode := if mode.editable then mode else .editing

theorem edited_editable (mode : Mode) : (edited mode).editable = true := by
  rw [edited]
  split
  · assumption
  · rfl

theorem run_edit {m : Modes} (hpresented : m.presented = none) :
    run Modes.next m ((edit m.mode : List (UserEvent Image)).map .user) =
      some { m with mode := edited m.mode } := by
  by_cases heditable : m.mode.editable = true
  · rw [edit, edited, if_pos heditable, if_pos heditable]
    rfl
  · rw [edit, edited, if_neg heditable, if_neg heditable, List.map_singleton, run_cons]
    have hnext : m.next (.user (.editButton : UserEvent Image)) = some { m with mode := .editing } :=
      if_pos ⟨hpresented, Bool.of_not_eq_true heditable⟩
    rw [hnext, Option.bind_some, run_nil]

/-- From anywhere into editing with nothing presented, in two events. -/
theorem exists_editing (m : Modes) : ∃ us : List (UserEvent Image), us.length ≤ 2 ∧
    run Modes.next m (us.map .user) =
      some { m with mode := edited (closed m).mode, presented := none } := by
  refine ⟨close m.presented ++ edit (closed m).mode, ?_, ?_⟩
  · have hclose : (close m.presented : List (UserEvent Image)).length ≤ 1 := by
      rcases m.presented with _ | presented
      · exact Nat.zero_le _
      · cases presented <;> exact Nat.le_refl _
    have hedit : (edit (closed m).mode : List (UserEvent Image)).length ≤ 1 := by
      rw [edit]
      split
      · exact Nat.zero_le _
      · exact Nat.le_refl _
    rw [List.length_append]
    omega
  · rw [List.map_append, run_append_of_run (run_close m)]
    exact run_edit rfl

/-- The saves are still shown after these two events only where Cancel could be tapped. -/
theorem edited_state_iff (m : Modes) : (edited (closed m).mode).state = .saving ↔
    m.mode.state = .saving ∧ m.mode.editable = true ∧ m.presented ≠ some .success := by
  obtain ⟨mode, presented, outstanding, main⟩ := m
  by_cases hsuccess : presented = some .success
  · simp [closed, hsuccess, edited, Mode.editable, Mode.state]
  · cases mode with
    | saving editable => cases editable <;> simp [closed, hsuccess, edited, Mode.editable, Mode.state]
    | view => simp [closed, hsuccess, edited, Mode.editable, Mode.state]
    | editing => simp [closed, hsuccess, edited, Mode.editable, Mode.state]
    | hasChanges => simp [closed, hsuccess, edited, Mode.editable, Mode.state]

variable [DecidableEq Image] {kit : UIKit Image} {profile : Option (ProfileViewModel Image)}

theorem reachable_shows (h : Reachable (step kit) (World.loaded kit profile) w) :
    ∃ m, Shows w m := by
  obtain ⟨es, hes⟩ := h
  have hrel := run_rel (fun w m e hw => step_rel kit w m e hw) (loaded_shows kit profile) es
  rw [hes] at hrel
  generalize run Modes.next Modes.loaded es = x at hrel
  cases hrel with
  | some hw => exact ⟨_, hw⟩

/-- What the user does leaves the stored profile, the saves under way and the alerts due. -/
theorem user_profile {e : UserEvent Image} {t : World Image}
    (h : step kit w (.user e) = some t) : t.profile = w.profile := by
  obtain ⟨⟨s, r⟩, -, rfl⟩ := Option.map_eq_some_iff.mp h
  cases r with
  | none => rfl
  | some r => cases r <;> rfl

theorem run_user_profile {us : List (UserEvent Image)} {t : World Image}
    (h : run (step kit) w (us.map .user) = some t) : t.profile = w.profile := by
  induction us generalizing w with
  | nil =>
    obtain rfl : w = t := Option.some.inj h
    rfl
  | cons e us ih =>
    obtain ⟨v, hv, hrest⟩ := run_cons_eq_some.mp h
    exact (ih hrest).trans (user_profile hv)

/-- The user can be editing after two events, whatever has happened. -/
theorem exists_run_editing {m : Modes} (hw : Shows w m) :
    ∃ (us : List (UserEvent Image)) (t : World Image), us.length ≤ 2 ∧
      run (step kit) w (us.map .user) = some t ∧ t.profile = w.profile ∧
      Shows t ⟨edited (closed m).mode, none, w.outstanding, w.main⟩ := by
  obtain ⟨us, hlength, hrun⟩ := @exists_editing Image m
  have hrel := run_rel (step_rel kit) hw (us.map .user)
  rw [hrun] at hrel
  obtain ⟨t, ht, hshows⟩ := exists_of_rel_some hrel
  refine ⟨us, t, hlength, ht, run_user_profile ht, ?_⟩
  rw [hw.outstanding, hw.main]
  exact hshows

/-- The screen is saving with the Cancel button shown, and no success is announced over it. -/
def CancelsSaves (w : World Image) : Prop :=
  w.screen.currentState = .saving ∧ w.screen.cancelButtonIsHidden = false ∧
    w.screen.presented ≠ some .success

omit [DecidableEq Image] in
instance (w : World Image) : Decidable (CancelsSaves w) := by
  unfold CancelsSaves
  infer_instance

/-- The screen views the stored profile, and no save was started. Those under way are as they
were, or all cancelled where the screen could cancel them. -/
structure Restored (w t : World Image) : Prop where
  state : t.screen.currentState = .view
  presented : t.screen.presented = none
  name : t.screen.nameLabel = (w.profile.map ProfileViewModel.name).getD ""
  description : t.screen.descriptionLabel = (w.profile.map ProfileViewModel.description).getD ""
  avatar : t.screen.avatarImageView = w.profile.map ProfileViewModel.avatar
  profile : t.profile = w.profile
  outstanding : t.outstanding =
    if CancelsSaves w then w.outstanding.map fun _ => true else w.outstanding
  main : t.main = w.main

omit [DecidableEq Image] in
theorem cancelsSaves_iff (hw : Shows w m) :
    CancelsSaves w ↔ (edited (closed m).mode).state = .saving := by
  rw [edited_state_iff, CancelsSaves, hw.controls.state, hw.controls.cancel, hw.presented,
    Bool.not_eq_false']

theorem cancel_restored {v : World Image} (hv : Shows v m)
    (hw : Shows w ⟨edited (closed m).mode, none, v.outstanding, v.main⟩)
    (hprofile : w.profile = v.profile) :
    ∃ t, step kit w (.user .cancelButton) = some t ∧ Restored v t := by
  have hcancel : w.screen.cancelButtonIsHidden = false := by
    rw [hw.controls.cancel, edited_editable]
    rfl
  have hhandle : handle kit w.profile w.screen .cancelButton =
      some (cancelButtonTapped w.profile w.screen) := if_pos ⟨hw.presented, hcancel⟩
  have hstate : CancelsSaves v ↔ w.screen.currentState = .saving := by
    rw [cancelsSaves_iff hv, hw.controls.state]
  refine ⟨_, congrArg (Option.map _) hhandle, ?_⟩
  by_cases hsaving : w.screen.currentState = .saving
  all_goals
    simp only [cancelButtonTapped, hsaving, if_true, if_false, request, cancelAllOperations]
    constructor <;>
      simp [hw.presented, hw.outstanding, hw.main, hprofile, hstate, hsaving]

theorem handle_saveButton (hs : Controls .hasChanges s) (hpresented : s.presented = none) :
    handle kit profile s .saveButton = some (saveProfileChanges kit s) := by
  have hsave := (saveButton_iff hs).mpr rfl
  have hstate : s.currentState = .hasChanges := hs.state
  have htap : saveButtonTapped kit s = saveProfileChanges kit s := by
    rw [saveButtonTapped, hstate]
  rw [handle, if_pos ⟨hpresented, hsave⟩, htap]

/-- The save button saves the name that was typed last. -/
theorem typed_saved {mode : Mode} {outstanding main : List Bool}
    (hw : Shows w ⟨mode, none, outstanding, main⟩) (heditable : mode.editable = true)
    (text : String) :
    ∃ t s p, step kit w (.user (.nameChanged text)) = some t ∧
      handle kit t.profile t.screen .saveButton = some (s, some (.saveProfile p)) ∧
      p.name = text := by
  have hname : w.screen.nameLabelIsEnabled = true := hw.controls.name.trans heditable
  let typed := checkProfileDataForChanges { w.screen with nameLabel := text }
  have hhandle : handle kit w.profile w.screen (.nameChanged text) = some (typed, none) :=
    if_pos ⟨hw.presented, hname⟩
  have hcontrols : Controls .hasChanges typed := controls_checked (hw.controls.shown ..) heditable
  have hpresented : typed.presented = none :=
    (checkProfileDataForChanges_presented _).trans hw.presented
  exact ⟨{ w with screen := typed }, changeView .saving typed, newProfile kit typed,
    congrArg (Option.map _) hhandle, handle_saveButton hcontrols hpresented,
    changeView_nameLabel _ _⟩

/-- Whatever has happened on the screen, three events of the user bring back the stored
profile, and three others have the save button save a name of any text. -/
theorem responsive (h : Reachable (step kit) (World.loaded kit profile) w) :
    (∃ (us : List (UserEvent Image)) (t : World Image), us.length ≤ 3 ∧
      run (step kit) w (us.map .user) = some t ∧ Restored w t) ∧
    ∀ text, ∃ (us : List (UserEvent Image)) (t : World Image) (s : Screen Image)
      (p : ProfileViewModel Image), us.length ≤ 3 ∧
      run (step kit) w (us.map .user) = some t ∧
      handle kit t.profile t.screen .saveButton = some (s, some (.saveProfile p)) ∧
      p.name = text := by
  obtain ⟨m, hw⟩ := reachable_shows h
  obtain ⟨us, u, hlength, hrun, hprofile, hu⟩ := exists_run_editing hw
  constructor
  · obtain ⟨t, ht, hrestored⟩ := cancel_restored hw hu hprofile
    refine ⟨us ++ [.cancelButton], t, ?_, ?_, hrestored⟩
    · rw [List.length_append, List.length_singleton]
      omega
    · rw [List.map_append, run_append_of_run hrun, List.map_singleton, run_cons_of_step ht, run_nil]
  · intro text
    obtain ⟨t, s, p, ht, hsave, hname⟩ := typed_saved hu (edited_editable _) text
    refine ⟨us ++ [.nameChanged text], t, s, p, ?_, ?_, hsave, hname⟩
    · rw [List.length_append, List.length_singleton]
      omega
    · rw [List.map_append, run_append_of_run hrun, List.map_singleton, run_cons_of_step ht, run_nil]

/-- A save that is under way when the name is shown for editing. -/
def savedName : List (Event (Option Data)) :=
  [.user .editButton, .user (.nameChanged "Nikita"), .user .saveButton]

theorem responsive_savedName :
    ∃ w, run (step plainKit) (World.loaded plainKit (some nick)) savedName = some w ∧
      ∃ (us : List (UserEvent (Option Data))) (t : World (Option Data)), us.length ≤ 3 ∧
        run (step plainKit) w (us.map .user) = some t ∧ Restored w t ∧ t.outstanding = [true] := by
  obtain ⟨w, hw, hcancels, houtstanding⟩ :
      ∃ w, run (step plainKit) (World.loaded plainKit (some nick)) savedName = some w ∧
        CancelsSaves w ∧ w.outstanding = [false] := ⟨_, rfl, by decide, rfl⟩
  obtain ⟨us, t, hlength, ht, hrestored⟩ := (responsive ⟨savedName, hw⟩).1
  refine ⟨w, hw, us, t, hlength, ht, hrestored, ?_⟩
  rw [hrestored.outstanding, if_pos hcancels, houtstanding]
  rfl

end Ways

end TinkoffChat.ScreenModes

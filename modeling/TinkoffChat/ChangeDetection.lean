import TinkoffChat.ScreenSaves

/-!
The check of the profile screen for changes. It compares the labels and the
image with the screen's own profile, which nothing ever sets, so it finds
changes whenever it is made, also when the profile is shown as it was loaded.
-/
namespace TinkoffChat.ChangeDetection

open PartialRuns ProfileFiles ProfileViewController ScreenSaves

variable {Image : Type*}

/-- The screen shows another name, description or image object than the profile's. -/
def Differs (profile : ProfileViewModel Image) (s : Screen Image) : Prop :=
  s.nameLabel ≠ profile.name ∨ s.descriptionLabel ≠ profile.description ∨
    s.avatarImageView ≠ some profile.avatar

/-- The state says whether the profile has been changed, and so does the save button. -/
structure Exact (profile : ProfileViewModel Image) (s : Screen Image) : Prop where
  hasChanges_iff : s.currentState = .hasChanges ∧ s.saveButtonIsEnabled = true ↔ Differs profile s
  editing_iff : s.currentState = .editing ∧ s.saveButtonIsEnabled = false ↔ ¬ Differs profile s

/-- What is shown when the event makes a check, if it makes one. -/
def checkedScreen (s : Screen Image) : Event Image → Option (Screen Image)
  | .user (.nameChanged text) => some { s with nameLabel := text }
  | .user .nameReturned => some s
  | .user (.descriptionChanged text) => some { s with descriptionLabel := text }
  | _ => none

/-- After a check the state is right for the profile that the screen was loaded with. -/
def ChecksExactly [DecidableEq Image] (kit : UIKit Image) (profile : ProfileViewModel Image)
    (w : World Image) (e : Event Image) : Prop :=
  ∀ shown, checkedScreen w.screen e = some shown → ∀ t, step kit w e = some t →
    Exact profile t.screen

/-- A check is made only while something else than the loaded profile is shown. -/
def ChecksDifferent (profile : ProfileViewModel Image) (w : World Image) (e : Event Image) : Prop :=
  ∀ shown, checkedScreen w.screen e = some shown → Differs profile shown

/-- The screen has no profile of its own, and its save button is enabled for changes. -/
def Unset (s : Screen Image) : Prop :=
  s.profileModel = none ∧ (s.currentState = .hasChanges → s.saveButtonIsEnabled = true)

theorem changeView_unset {s : Screen Image} (hs : Unset s) (state : ProfileViewState) :
    Unset (changeView state s) := by
  unfold changeView
  split
  · exact hs
  · cases state with
    | hasChanges => exact ⟨hs.1, fun _ => rfl⟩
    | base => exact ⟨hs.1, fun h => by cases h⟩
    | view => exact ⟨hs.1, fun h => by cases h⟩
    | editing => exact ⟨hs.1, fun h => by cases h⟩
    | saving => exact ⟨hs.1, fun h => by cases h⟩

theorem exact_changeView_iff {profile : ProfileViewModel Image} {s : Screen Image} (hs : Unset s) :
    Exact profile (changeView .hasChanges s) ↔ Differs profile s := by
  have hstate : (changeView .hasChanges s).currentState = .hasChanges :=
    changeView_currentState .hasChanges s
  have henabled : (changeView .hasChanges s).saveButtonIsEnabled = true :=
    (changeView_unset hs .hasChanges).2 hstate
  have hshown : Differs profile (changeView .hasChanges s) ↔ Differs profile s := by
    simp only [Differs, changeView_nameLabel, changeView_descriptionLabel,
      changeView_avatarImageView]
  constructor
  · intro hexact
    exact hshown.mp (hexact.hasChanges_iff.mp ⟨hstate, henabled⟩)
  · intro hdiffers
    refine ⟨iff_of_true ⟨hstate, henabled⟩ (hshown.mpr hdiffers), iff_of_false ?_ ?_⟩
    · rintro ⟨hediting, -⟩
      rw [hstate] at hediting
      cases hediting
    · exact not_not_intro (hshown.mpr hdiffers)

theorem request_screen (w : World Image) (r : Option (Request Image)) :
    (request w r).screen = w.screen := by
  cases r with
  | none => rfl
  | some r => cases r <;> rfl

section Checked

variable [DecidableEq Image] {kit : UIKit Image} {w t : World Image} {e : Event Image}

/-- Without a profile of the screen's own the check finds changes. -/
theorem checkProfileDataForChanges_of_unset {s : Screen Image} (hs : Unset s) :
    checkProfileDataForChanges s = changeView .hasChanges s := by
  have hchanges : hasDataChanges s = true := by simp [hasDataChanges, hs.1]
  rw [checkProfileDataForChanges, hchanges, if_pos rfl]

theorem checkProfileDataForChanges_unset {s : Screen Image} (hs : Unset s) :
    Unset (checkProfileDataForChanges s) :=
  changeView_unset hs _

theorem handle_unset {profile : Option (ProfileViewModel Image)} {s : Screen Image}
    {event : UserEvent Image} {result : Screen Image × Option (Request Image)} (hs : Unset s)
    (h : handle kit profile s event = some result) : Unset result.1 := by
  cases event with
  | editButton =>
    obtain ⟨-, heq⟩ := Option.ite_none_right_eq_some.mp h
    obtain rfl := Option.some.inj heq
    exact changeView_unset hs .editing
  | cancelButton =>
    obtain ⟨-, heq⟩ := Option.ite_none_right_eq_some.mp h
    obtain rfl := Option.some.inj heq
    exact changeView_unset (s := { s with
      avatarImageView := profile.map ProfileViewModel.avatar
      nameLabel := (profile.map ProfileViewModel.name).getD ""
      descriptionLabel := (profile.map ProfileViewModel.description).getD "" }) hs .view
  | saveButton =>
    obtain ⟨-, heq⟩ := Option.ite_none_right_eq_some.mp h
    obtain rfl := Option.some.inj heq
    unfold saveButtonTapped
    cases s.currentState with
    | view => exact changeView_unset hs .editing
    | hasChanges => exact changeView_unset hs .saving
    | base => exact hs
    | editing => exact hs
    | saving => exact hs
  | nameChanged text =>
    obtain ⟨-, heq⟩ := Option.ite_none_right_eq_some.mp h
    obtain rfl := Option.some.inj heq
    exact checkProfileDataForChanges_unset (s := { s with nameLabel := text }) hs
  | nameReturned =>
    obtain ⟨-, heq⟩ := Option.ite_none_right_eq_some.mp h
    obtain rfl := Option.some.inj heq
    exact checkProfileDataForChanges_unset hs
  | descriptionChanged text =>
    obtain ⟨-, heq⟩ := Option.ite_none_right_eq_some.mp h
    obtain rfl := Option.some.inj heq
    exact checkProfileDataForChanges_unset (s := { s with descriptionLabel := text }) hs
  | avatar =>
    obtain ⟨-, heq⟩ := Option.ite_none_right_eq_some.mp h
    obtain rfl := Option.some.inj heq
    exact hs
  | choose picker =>
    obtain ⟨-, heq⟩ := Option.ite_none_right_eq_some.mp h
    obtain rfl := Option.some.inj heq
    exact hs
  | dismiss =>
    obtain ⟨-, heq⟩ := Option.ite_none_right_eq_some.mp h
    obtain rfl := Option.some.inj heq
    exact hs
  | imagePicked image =>
    obtain ⟨-, heq⟩ := Option.ite_none_right_eq_some.mp h
    obtain rfl := Option.some.inj heq
    exact changeView_unset (changeView_unset hs .editing) .hasChanges
  | networkImagePicked image =>
    obtain ⟨-, heq⟩ := Option.ite_none_right_eq_some.mp h
    obtain rfl := Option.some.inj heq
    exact changeView_unset (s := { s with avatarImageView := some image, presented := none }) hs
      .saving
  | ok =>
    rw [handle] at h
    split at h
    · obtain rfl := Option.some.inj h
      exact changeView_unset (s := { s with presented := none }) hs .view
    · obtain ⟨-, heq⟩ := Option.ite_none_right_eq_some.mp h
      obtain rfl := Option.some.inj heq
      exact hs
  | retry =>
    obtain ⟨-, heq⟩ := Option.ite_none_right_eq_some.mp h
    obtain rfl := Option.some.inj heq
    exact changeView_unset (s := { s with presented := none }) hs .saving

theorem step_unset (hw : Unset w.screen) (h : step kit w e = some t) : Unset t.screen := by
  cases e with
  | user event =>
    obtain ⟨result, hresult, rfl⟩ := Option.map_eq_some_iff.mp h
    rw [request_screen]
    exact handle_unset hw hresult
  | viewWillDisappear =>
    obtain rfl := Option.some.inj h
    exact hw
  | stored profile =>
    obtain rfl := Option.some.inj h
    exact hw
  | completed save success =>
    obtain ⟨isCancelled, -, rfl⟩ := Option.map_eq_some_iff.mp h
    exact hw
  | dropped save =>
    obtain ⟨-, heq⟩ := Option.ite_none_right_eq_some.mp h
    obtain rfl := Option.some.inj heq
    exact hw
  | main =>
    unfold step at h
    cases hmain : w.main with
    | nil =>
      rw [hmain] at h
      cases h
    | cons success rest =>
      rw [hmain] at h
      obtain rfl := Option.some.inj h
      cases success with
      | true => exact hw
      | false => exact changeView_unset hw .view

/-- A check leaves the screen with changes, whatever it shows. -/
theorem step_checked {shown : Screen Image} (hw : Unset w.screen)
    (hshown : checkedScreen w.screen e = some shown) (h : step kit w e = some t) :
    t.screen = changeView .hasChanges shown ∧ Unset shown := by
  cases e with
  | user event =>
    obtain ⟨result, hresult, rfl⟩ := Option.map_eq_some_iff.mp h
    rw [request_screen]
    cases event with
    | nameChanged text =>
      obtain ⟨-, heq⟩ := Option.ite_none_right_eq_some.mp hresult
      obtain rfl := Option.some.inj heq
      obtain rfl := Option.some.inj hshown
      exact ⟨checkProfileDataForChanges_of_unset (s := { w.screen with nameLabel := text }) hw, hw⟩
    | nameReturned =>
      obtain ⟨-, heq⟩ := Option.ite_none_right_eq_some.mp hresult
      obtain rfl := Option.some.inj heq
      obtain rfl := Option.some.inj hshown
      exact ⟨checkProfileDataForChanges_of_unset hw, hw⟩
    | descriptionChanged text =>
      obtain ⟨-, heq⟩ := Option.ite_none_right_eq_some.mp hresult
      obtain rfl := Option.some.inj heq
      obtain rfl := Option.some.inj hshown
      have hshown : Unset { w.screen with descriptionLabel := text } := hw
      exact ⟨checkProfileDataForChanges_of_unset hshown, hw⟩
    | _ => cases hshown
  | _ => cases hshown

theorem step_checksExactly_iff {profile : ProfileViewModel Image} (hw : Unset w.screen)
    (h : step kit w e = some t) : ChecksExactly kit profile w e ↔ ChecksDifferent profile w e := by
  apply forall₂_congr
  intro shown hshown
  obtain ⟨hscreen, hunset⟩ := step_checked hw hshown h
  rw [← exact_changeView_iff hunset, ← hscreen]
  constructor
  · intro hall
    exact hall t h
  · intro hexact u hu
    obtain rfl : t = u := Option.some.inj (h.symm.trans hu)
    exact hexact

/-- Every check of a run leaves the right state if and only if none is made while the
screen shows the profile it was loaded with. -/
theorem checksExactly_iff (kit : UIKit Image) (profile : ProfileViewModel Image)
    {es : List (Event Image)} {t : World Image}
    (h : run (step kit) (World.loaded kit (some profile)) es = some t) :
    Along (step kit) (ChecksExactly kit profile) (World.loaded kit (some profile)) es ↔
      Along (step kit) (ChecksDifferent profile) (World.loaded kit (some profile)) es := by
  have hloaded : Unset (World.loaded kit (some profile)).screen :=
    changeView_unset (s := setupProfile (some profile) (.storyboard kit))
      ⟨rfl, fun h => by cases h⟩ .view
  constructor
  · intro hexact
    exact along_of_invariant (fun _ _ _ hw _ h => step_unset hw h)
      (fun _ _ _ hw he h => (step_checksExactly_iff hw h).mp he) hloaded hexact h
  · intro hdifferent
    exact along_of_invariant (fun _ _ _ hw _ h => step_unset hw h)
      (fun _ _ _ hw he h => (step_checksExactly_iff hw h).mpr he) hloaded hdifferent h

end Checked

/-- The name is edited once. -/
def renamed : List (Event (Option Data)) := [.user .editButton, .user (.nameChanged "Nikita")]

theorem checksExactly_renamed :
    Along (step plainKit) (ChecksExactly plainKit nick) (World.loaded plainKit (some nick))
      renamed := by
  obtain ⟨t, hrun⟩ :
      ∃ t, run (step plainKit) (World.loaded plainKit (some nick)) renamed = some t := ⟨_, rfl⟩
  refine (checksExactly_iff plainKit nick hrun).mpr ?_
  refine (along_cons_of_step rfl).mpr ⟨fun _ hshown => (by cases hshown), ?_⟩
  refine (along_cons_of_step rfl).mpr ⟨fun shown hshown => ?_, trivial⟩
  obtain rfl := Option.some.inj hshown
  exact Or.inl (by decide)

/-- The name is edited and edited back: the screen still says that there are changes. -/
theorem not_checksExactly :
    ¬ ∀ (es : List (Event (Option Data))) (t : World (Option Data)),
      run (step plainKit) (World.loaded plainKit (some nick)) es = some t →
        Along (step plainKit) (ChecksExactly plainKit nick)
          (World.loaded plainKit (some nick)) es := by
  intro h
  have hexact := h [.user .editButton, .user (.nameChanged "Nikita"), .user (.nameChanged "Nick")]
    _ rfl
  rw [along_cons_of_step rfl, along_cons_of_step rfl, along_cons_of_step rfl] at hexact
  have hdiffers := (hexact.2.2.1 _ rfl _ rfl).hasChanges_iff.mp ⟨rfl, rfl⟩
  rcases hdiffers with hname | hdescription | havatar
  · exact hname rfl
  · exact hdescription rfl
  · exact havatar rfl

end TinkoffChat.ChangeDetection

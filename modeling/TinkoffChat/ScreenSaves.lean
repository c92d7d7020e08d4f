import TinkoffChat.PartialRuns
import TinkoffChat.ProfileViewController
import Mathlib.Data.List.Basic

/-!
The saves that the profile screen has under way. Completions come in any order
and go through the main queue in theirs; a save that was cancelled may end
without one. The screen disables the save button while it saves, but it lets
other controls, and the answers to earlier saves, change the state.
-/
namespace TinkoffChat.ScreenSaves

open PartialRuns ProfileFiles ProfileViewController

variable {Image : Type*}

/-- The screen with the profile in the user data store, the saves outstanding, each with
whether it has been cancelled, and the successes that wait on the main queue. -/
structure World (Image : Type*) where
  screen : Screen Image
  profile : Option (ProfileViewModel Image)
  outstanding : List Bool
  main : List Bool

/-- Only a save that was cancelled may be dropped. A read may store another profile. -/
inductive Event (Image : Type*)
  | user (event : UserEvent Image)
  | viewWillDisappear
  | stored (profile : ProfileViewModel Image)
  | completed (save : ℕ) (success : Bool)
  | dropped (save : ℕ)
  | main

def World.loaded (kit : UIKit Image) (profile : Option (ProfileViewModel Image)) : World Image :=
  ⟨viewDidLoad kit profile, profile, [], []⟩

def cancelAllOperations (w : World Image) : World Image :=
  { w with outstanding := w.outstanding.map fun _ => true }

def request (w : World Image) : Option (Request Image) → World Image
  | none => w
  | some (.saveProfile _) => { w with outstanding := w.outstanding ++ [false] }
  | some .cancelAllOperations => cancelAllOperations w

def step [DecidableEq Image] (kit : UIKit Image) (w : World Image) :
    Event Image → Option (World Image)
  | .user event => (handle kit w.profile w.screen event).map fun result =>
      request { w with screen := result.1 } result.2
  | .viewWillDisappear => some (cancelAllOperations w)
  | .stored profile => some { w with profile := some profile }
  | .completed save success => w.outstanding[save]?.map fun _ =>
      { w with outstanding := w.outstanding.eraseIdx save, main := w.main ++ [success] }
  | .dropped save =>
    if w.outstanding[save]? = some true then
      some { w with outstanding := w.outstanding.eraseIdx save }
    else none
  | .main => match w.main with
    | [] => none
    | success :: rest => some { w with screen := completed success w.screen, main := rest }

/-- A save is outstanding and has not been cancelled. -/
def Busy (w : World Image) : Prop := false ∈ w.outstanding

structure OneSave (w : World Image) : Prop where
  outstanding_le : w.outstanding.length ≤ 1
  saving : Busy w → w.screen.currentState = .saving

/-- The step starts a save while one is outstanding, or takes the screen out of the state
of saving while one is that has not been cancelled. -/
def Disturbs (w : World Image) : Event Image → Prop
  | .user .editButton => Busy w
  | .user (.nameChanged _) => Busy w
  | .user .nameReturned => Busy w
  | .user (.descriptionChanged _) => Busy w
  | .user (.imagePicked _) => Busy w
  | .user .ok => w.screen.presented = some .success ∧ Busy w
  | .main => w.main.head? = some false ∧ Busy w
  | .user .saveButton => w.screen.currentState = .hasChanges ∧ w.outstanding ≠ []
  | .user (.networkImagePicked _) => w.outstanding ≠ []
  | .user .retry => w.outstanding ≠ []
  | _ => False

theorem not_busy_cancelled (w : World Image) : ¬ Busy (cancelAllOperations w) := by
  intro h
  obtain ⟨b, -, hb⟩ := List.mem_map.mp h
  cases hb

theorem cancelled_oneSave {w : World Image} (hw : OneSave w) (s : Screen Image) :
    OneSave (cancelAllOperations { w with screen := s }) :=
  ⟨Nat.le_trans (Nat.le_of_eq (List.length_map _)) hw.outstanding_le,
    fun h => absurd h (not_busy_cancelled _)⟩

/-- A state that is not saving is left to the screen exactly if no save is under way. -/
theorem oneSave_other_iff {w : World Image} (hw : OneSave w) {s : Screen Image}
    (hs : s.currentState ≠ .saving) : OneSave { w with screen := s } ↔ ¬ Busy w := by
  constructor
  · exact fun h hbusy => hs (h.saving hbusy)
  · exact fun h => ⟨hw.outstanding_le, fun hbusy => absurd hbusy h⟩

theorem oneSave_same {w : World Image} (hw : OneSave w) {s : Screen Image}
    (hs : s.currentState = w.screen.currentState) : OneSave { w with screen := s } :=
  ⟨hw.outstanding_le, fun hbusy => hs.trans (hw.saving hbusy)⟩

theorem oneSave_save_iff {w : World Image} {s : Screen Image} (hs : s.currentState = .saving)
    (profile : ProfileViewModel Image) :
    OneSave (request { w with screen := s } (some (.saveProfile profile))) ↔
      ¬ w.outstanding ≠ [] := by
  have hlength : (request { w with screen := s } (some (.saveProfile profile))).outstanding.length =
      w.outstanding.length + 1 := List.length_append
  rw [not_not]
  constructor
  · intro h
    have hle := h.outstanding_le
    rw [hlength] at hle
    exact List.length_eq_zero_iff.mp (by omega)
  · intro h
    refine ⟨?_, fun _ => hs⟩
    rw [hlength, h]
    exact Nat.le_refl _

/-- What the user does keeps to one save exactly if it does not disturb it. -/
theorem user_oneSave_iff [DecidableEq Image] {kit : UIKit Image} {w t : World Image}
    {e : UserEvent Image} (hw : OneSave w) (h : step kit w (.user e) = some t) :
    OneSave t ↔ ¬ Disturbs w (.user e) := by
  obtain ⟨⟨s, r⟩, hresult, rfl⟩ := Option.map_eq_some_iff.mp h
  cases e with
  | editButton =>
    obtain ⟨-, heq⟩ := Option.ite_none_right_eq_some.mp hresult
    obtain ⟨rfl, rfl⟩ := Prod.mk.inj (Option.some.inj heq)
    exact oneSave_other_iff hw (by simp)
  | cancelButton =>
    obtain ⟨-, heq⟩ := Option.ite_none_right_eq_some.mp hresult
    obtain ⟨rfl, rfl⟩ := Prod.mk.inj (Option.some.inj heq)
    refine iff_of_true ?_ id
    by_cases hsaving : w.screen.currentState = .saving
    · rw [if_pos hsaving]
      exact cancelled_oneSave hw _
    · rw [if_neg hsaving]
      exact (oneSave_other_iff hw (by simp)).mpr fun hbusy => hsaving (hw.saving hbusy)
  | saveButton =>
    obtain ⟨-, heq⟩ := Option.ite_none_right_eq_some.mp hresult
    have heq := Option.some.inj heq
    unfold saveButtonTapped at heq
    cases hstate : w.screen.currentState <;> rw [hstate] at heq <;>
      obtain ⟨rfl, rfl⟩ := Prod.mk.inj heq
    case hasChanges =>
      rw [Disturbs, and_iff_right hstate]
      exact oneSave_save_iff (by simp) _
    case view =>
      refine iff_of_true ?_ (fun hdisturbs => ?_)
      · refine (oneSave_other_iff hw (by simp)).mpr fun hbusy => ?_
        rw [hw.saving hbusy] at hstate
        cases hstate
      · rw [hdisturbs.1] at hstate
        cases hstate
    all_goals
      refine iff_of_true (oneSave_same hw rfl) (fun hdisturbs => ?_)
      rw [hdisturbs.1] at hstate
      cases hstate
  | nameChanged text =>
    obtain ⟨-, heq⟩ := Option.ite_none_right_eq_some.mp hresult
    obtain ⟨rfl, rfl⟩ := Prod.mk.inj (Option.some.inj heq)
    exact oneSave_other_iff hw (checkProfileDataForChanges_ne (by decide) (by decide) _)
  | nameReturned =>
    obtain ⟨-, heq⟩ := Option.ite_none_right_eq_some.mp hresult
    obtain ⟨rfl, rfl⟩ := Prod.mk.inj (Option.some.inj heq)
    exact oneSave_other_iff hw (checkProfileDataForChanges_ne (by decide) (by decide) _)
  | descriptionChanged text =>
    obtain ⟨-, heq⟩ := Option.ite_none_right_eq_some.mp hresult
    obtain ⟨rfl, rfl⟩ := Prod.mk.inj (Option.some.inj heq)
    exact oneSave_other_iff hw (checkProfileDataForChanges_ne (by decide) (by decide) _)
  | avatar =>
    obtain ⟨-, heq⟩ := Option.ite_none_right_eq_some.mp hresult
    obtain ⟨rfl, rfl⟩ := Prod.mk.inj (Option.some.inj heq)
    exact iff_of_true (oneSave_same hw rfl) id
  | choose picker =>
    obtain ⟨-, heq⟩ := Option.ite_none_right_eq_some.mp hresult
    obtain ⟨rfl, rfl⟩ := Prod.mk.inj (Option.some.inj heq)
    exact iff_of_true (oneSave_same hw rfl) id
  | dismiss =>
    obtain ⟨-, heq⟩ := Option.ite_none_right_eq_some.mp hresult
    obtain ⟨rfl, rfl⟩ := Prod.mk.inj (Option.some.inj heq)
    exact iff_of_true (oneSave_same hw rfl) id
  | imagePicked image =>
    obtain ⟨-, heq⟩ := Option.ite_none_right_eq_some.mp hresult
    obtain ⟨rfl, rfl⟩ := Prod.mk.inj (Option.some.inj heq)
    exact oneSave_other_iff hw (by simp [imagePickerController])
  | networkImagePicked image =>
    obtain ⟨-, heq⟩ := Option.ite_none_right_eq_some.mp hresult
    obtain ⟨rfl, rfl⟩ := Prod.mk.inj (Option.some.inj heq)
    exact oneSave_save_iff (by simp) _
  | ok =>
    rw [handle] at hresult
    split at hresult
    · rename_i hsuccess
      obtain ⟨rfl, rfl⟩ := Prod.mk.inj (Option.some.inj hresult)
      rw [Disturbs, and_iff_right hsuccess]
      exact oneSave_other_iff hw (by simp)
    · rename_i hsuccess
      obtain ⟨-, heq⟩ := Option.ite_none_right_eq_some.mp hresult
      obtain ⟨rfl, rfl⟩ := Prod.mk.inj (Option.some.inj heq)
      exact iff_of_true (oneSave_same hw rfl) fun hdisturbs => hsuccess hdisturbs.1
  | retry =>
    obtain ⟨-, heq⟩ := Option.ite_none_right_eq_some.mp hresult
    obtain ⟨rfl, rfl⟩ := Prod.mk.inj (Option.some.inj heq)
    exact oneSave_save_iff (by simp) _

/-- A step keeps to one save exactly if it does not disturb it. -/
theorem step_oneSave_iff [DecidableEq Image] {kit : UIKit Image} {w t : World Image}
    {e : Event Image} (hw : OneSave w) (h : step kit w e = some t) :
    OneSave t ↔ ¬ Disturbs w e := by
  have herase (save : ℕ) (main : List Bool) :
      OneSave { w with outstanding := w.outstanding.eraseIdx save, main := main } :=
    ⟨Nat.le_trans (List.length_eraseIdx_le ..) hw.outstanding_le,
      fun hbusy => hw.saving (List.mem_of_mem_eraseIdx hbusy)⟩
  cases e with
  | user event => exact user_oneSave_iff hw h
  | viewWillDisappear =>
    obtain rfl := Option.some.inj h
    exact iff_of_true (cancelled_oneSave hw w.screen) id
  | stored profile =>
    obtain rfl := Option.some.inj h
    exact iff_of_true ⟨hw.outstanding_le, hw.saving⟩ id
  | completed save success =>
    obtain ⟨isCancelled, -, rfl⟩ := Option.map_eq_some_iff.mp h
    exact iff_of_true (herase save _) id
  | dropped save =>
    obtain ⟨-, heq⟩ := Option.ite_none_right_eq_some.mp h
    obtain rfl := Option.some.inj heq
    exact iff_of_true (herase save w.main) id
  | main =>
    unfold step at h
    cases hmain : w.main with
    | nil =>
      rw [hmain] at h
      cases h
    | cons success rest =>
      rw [hmain] at h
      obtain rfl := Option.some.inj h
      have hrest : OneSave { w with screen := completed success w.screen, main := rest } ↔
          OneSave { w with screen := completed success w.screen } :=
        ⟨fun h => ⟨h.outstanding_le, h.saving⟩, fun h => ⟨h.outstanding_le, h.saving⟩⟩
      have hdisturbs : Disturbs w .main ↔ success = false ∧ Busy w := by
        rw [Disturbs, hmain, List.head?_cons, Option.some.injEq]
      rw [hrest, hdisturbs]
      cases success with
      | true => exact iff_of_true (oneSave_same hw rfl) fun hfalse => Bool.noConfusion hfalse.1
      | false =>
        rw [and_iff_right rfl]
        exact oneSave_other_iff hw (by simp [completed, present])

theorem loaded_oneSave (kit : UIKit Image) (profile : Option (ProfileViewModel Image)) :
    OneSave (World.loaded kit profile) :=
  ⟨Nat.zero_le 1, fun hbusy => absurd hbusy List.not_mem_nil⟩

/-- In every state of a run at most one save is outstanding, and the state is that of
saving while one is that has not been cancelled, if and only if no step disturbs it. -/
theorem oneSave_iff [DecidableEq Image] {kit : UIKit Image}
    {profile : Option (ProfileViewModel Image)} {es : List (Event Image)} {t : World Image}
    (h : run (step kit) (World.loaded kit profile) es = some t) :
    (∀ fs, fs <+: es → ∀ v, run (step kit) (World.loaded kit profile) fs = some v → OneSave v) ↔
      Along (step kit) (fun w e => ¬ Disturbs w e) (World.loaded kit profile) es :=
  forall_prefix_iff_along (fun _ hw => hw) (fun _ _ _ hw h => step_oneSave_iff hw h)
    (fun _ _ _ hw he h => (step_oneSave_iff hw h).mpr he) (loaded_oneSave kit profile) h

def nick : ProfileViewModel (Option Data) := ⟨"Nick", "Kazantsev", some .empty⟩

/-- An edit that is saved. -/
def savedEdit : List (Event (Option Data)) :=
  [.user .editButton, .user (.nameChanged "Nikita"), .user .saveButton, .completed 0 true, .main,
    .user .ok]

theorem oneSave_savedEdit :
    ∃ t, run (step plainKit) (World.loaded plainKit (some nick)) savedEdit = some t ∧
      OneSave t := by
  obtain ⟨t, hrun⟩ :
      ∃ t, run (step plainKit) (World.loaded plainKit (some nick)) savedEdit = some t := ⟨_, rfl⟩
  have hundisturbed : Along (step plainKit) (fun w e => ¬ Disturbs w e)
      (World.loaded plainKit (some nick)) savedEdit := by
    refine (along_cons_of_step rfl).mpr ⟨List.not_mem_nil, ?_⟩
    refine (along_cons_of_step rfl).mpr ⟨List.not_mem_nil, ?_⟩
    refine (along_cons_of_step rfl).mpr ⟨fun h => h.2 rfl, ?_⟩
    refine (along_cons_of_step rfl).mpr ⟨id, ?_⟩
    refine (along_cons_of_step rfl).mpr ⟨fun h => List.not_mem_nil h.2, ?_⟩
    exact (along_cons_of_step rfl).mpr ⟨fun h => List.not_mem_nil h.2, trivial⟩
  exact ⟨t, hrun, (oneSave_iff hrun).mpr hundisturbed _ (List.prefix_refl _) t hrun⟩

/-- While an edit is saved the name is changed again: the state is that of changes. -/
theorem not_oneSave :
    ¬ ∀ (es : List (Event (Option Data))) (t : World (Option Data)),
      run (step plainKit) (World.loaded plainKit (some nick)) es = some t → OneSave t := by
  intro h
  have hone := h [.user .editButton, .user (.nameChanged "Nikita"), .user .saveButton,
    .user (.nameChanged "Nick")] _ rfl
  have hsaving := hone.saving (List.mem_singleton.mpr rfl)
  cases hsaving

end TinkoffChat.ScreenSaves

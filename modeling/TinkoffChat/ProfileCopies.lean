import TinkoffChat.ProfileDefaults
import TinkoffChat.ProfileReloads
import TinkoffChat.ProfileViewController

/-!
The copies of the profile: the files, the user data store and the labels of the
profile screen. A save writes the files, the conversation list then reads them
into the store, and the labels are left as they were saved. Where every save
has its turn, and is retried until it succeeds, the copies agree again.
-/
namespace TinkoffChat.ProfileCopies

open PartialRuns ProfileFiles OperationProfileManager ProfileTransfers ProfileReadback
open ProfileMixtures ProfileReloads ProfileViewController

variable {Image : Type*}

/-- The screen and the queue of its user data store, with how many of the answers the
main queue has dealt with and how often the conversation list is still to load the profile. -/
structure World (Image : Type*) where
  screen : Screen Image
  queue : ProfileQueue Image
  handled : ℕ
  reloads : ℕ

/-- `run` is the main of an operation, `main` the next block on the main queue. -/
inductive Event (Image : Type*)
  | user (event : UserEvent Image)
  | viewWillDisappear
  | readProfile
  | start (index : ℕ)
  | run (index : ℕ) (access : Access)
  | main
  | reload

def World.start (kit : UIKit Image) (q : ProfileQueue Image) : World Image :=
  ⟨viewDidLoad kit q.env.profile, q, q.env.answers.length, 0⟩

def request (kit : UIKit Image) (q : ProfileQueue Image) :
    Option (Request Image) → ProfileQueue Image
  | none => q
  | some (.saveProfile profile) => saveProfile kit profile q
  | some .cancelAllOperations => cancelAllOperations q

/-- What an answer does on the main queue: that of a save goes to the screen, and a success
through onProfileChanged to the conversation list too. -/
def answered (w : World Image) : Answer Image → World Image
  | .saved true => { w with screen := completed true w.screen, reloads := w.reloads + 1 }
  | .saved false => { w with screen := completed false w.screen }
  | _ => w

def step [DecidableEq Image] (kit : UIKit Image) (w : World Image) :
    Event Image → Option (World Image)
  | .user event => (handle kit w.queue.env.profile w.screen event).map fun result =>
      { w with screen := result.1, queue := request kit w.queue result.2 }
  | .viewWillDisappear => some { w with queue := cancelAllOperations w.queue }
  | .readProfile => some { w with queue := readProfile w.queue }
  | .start index =>
    (OperationProfileManager.step kit FileUtils w.queue (.operation (.start index))).map
      fun q => { w with queue := q }
  | .run index access =>
    (OperationProfileManager.step kit FileUtils w.queue (.operation (.main index access))).map
      fun q => { w with queue := q }
  | .main => w.queue.env.answers[w.handled]?.map fun a =>
      { answered w a.2 with handled := w.handled + 1 }
  | .reload =>
    if 0 < w.reloads then
      some { w with reloads := w.reloads - 1, queue := readProfile w.queue }
    else none

/-- No call is under way, and nothing waits on the main queue. -/
structure Idle (w : World Image) : Prop where
  drained : w.queue.Drained
  handled_eq : w.handled = w.queue.env.answers.length
  reloads_eq : w.reloads = 0

/-- Nothing is pending: no alert is open either. -/
structure Quiet (w : World Image) : Prop where
  idle : Idle w
  success_ne : w.screen.presented ≠ some .success
  error_ne : w.screen.presented ≠ some .error

def Shows (profile : ProfileViewModel Image) (s : Screen Image) : Prop :=
  s.nameLabel = profile.name ∧ s.descriptionLabel = profile.description ∧
    s.avatarImageView = some profile.avatar

structure Agree (kit : UIKit Image) (w : World Image) : Prop where
  files : w.queue.env.profile = profileOf kit (contents w.queue.env.disk)
  labels : w.screen.currentState = .view →
    ∃ profile, w.queue.env.profile = some profile ∧ Shows profile w.screen

/-- No save is under way, up to its answer on the main queue. -/
structure NoSave (w : World Image) : Prop where
  settled : Settled IsSave w.queue
  answered : ∀ a ∈ w.queue.env.answers.drop w.handled, ∀ success, a.2 ≠ .saved success

/-- A save is made when nothing else is under way, of an avatar with PNG data, and nothing
is edited, cancelled or read until it is done; if it fails it is retried. Loads can read. -/
def Careful (kit : UIKit Image) (w : World Image) : Event Image → Prop
  | .user (.nameChanged _) => NoSave w
  | .user (.descriptionChanged _) => NoSave w
  | .user (.imagePicked _) => NoSave w
  | .user .cancelButton => Idle w
  | .user .saveButton => w.screen.currentState = .hasChanges →
      Idle w ∧ kit.pngData (newProfile kit w.screen).avatar ≠ none
  | .user (.networkImagePicked image) => Idle w ∧ kit.pngData image ≠ none
  | .user .retry => kit.pngData (newProfile kit w.screen).avatar ≠ none
  | .user .ok => w.screen.presented ≠ some .error
  | .viewWillDisappear => w.queue.Drained
  | .readProfile => NoSave w ∧ w.screen.presented ≠ some .error
  | .run index access =>
    ∀ x, w.queue.entries[index]? = some x → IsLoad x.op → access = .succeeds
  | .main => ∀ a, w.queue.env.answers[w.handled]? = some a → a.2 = .saved false →
      w.screen.presented = none
  | _ => True

variable {kit : UIKit Image} {profile : ProfileViewModel Image} {q : ProfileQueue Image}

/-- A save has succeeded, and its answer waits on the main queue. -/
def Succeeded (w : World Image) : Prop :=
  ∃ a ∈ w.queue.env.answers.drop w.handled, a.2 = .saved true

/-- How the copies of the profile stand: it is in the files and the store will have it, it
is being saved, or a save of it has failed. -/
inductive Copies (kit : UIKit Image) (w : World Image) : Prop
  | whole (profile : ProfileViewModel Image)
      (reloading : Reloading kit profile w.queue)
      (answered : ∀ a ∈ w.queue.env.answers.drop w.handled, a.2 ≠ .saved false)
      (stored : w.queue.env.profile = some profile ∨ 0 < w.reloads ∨ Parsing w.queue ∨
        Succeeded w)
      (error_ne : w.screen.presented ≠ some .error)
      (shows_of : w.screen.currentState = .view ∨ w.screen.presented = some .success ∨
        Succeeded w → Shows profile w.screen)
  | saving (profile : ProfileViewModel Image) (s : ProfileQueue Image)
      (saving : Saving kit profile s w.queue)
      (png_ne : kit.pngData profile.avatar ≠ none)
      (answers_eq : w.queue.env.answers = s.env.answers)
      (handled_eq : w.handled = w.queue.env.answers.length)
      (reloads_eq : w.reloads = 0)
      (success_ne : w.screen.presented ≠ some .success)
      (error_ne : w.screen.presented ≠ some .error)
      (shown : Shows profile w.screen)
  | torn (drained : w.queue.Drained) (ordered : Ordered w.queue) (reloads_eq : w.reloads = 0)
      (failed : (∃ a : ℕ × Answer Image, w.queue.env.answers.drop w.handled = [a] ∧
          a.2 = .saved false ∧ w.screen.presented ≠ some .success ∧
          w.screen.presented ≠ some .error) ∨
        w.handled = w.queue.env.answers.length ∧ w.screen.presented = some .error)

/-- With no call under way the profile is whole and stored, or a save of it has failed. -/
theorem idle_copies {w : World Image} (hw : Copies kit w) (hidle : Idle w) :
    (∃ profile, Reloading kit profile w.queue ∧ w.queue.env.profile = some profile ∧
      (w.screen.currentState = .view → Shows profile w.screen)) ∨
    w.screen.presented = some .error ∧ Ordered w.queue := by
  have hdrop : w.queue.env.answers.drop w.handled = [] := by
    rw [hidle.handled_eq, List.drop_length]
  cases hw with
  | whole profile hreloading hanswered hstored herror hshows =>
    left
    refine ⟨profile, hreloading, ?_, fun hview => hshows (Or.inl hview)⟩
    rcases hstored with hprofile | hreloads | hparsing | ⟨a, ha, -⟩
    · exact hprofile
    · rw [hidle.reloads_eq] at hreloads
      cases hreloads
    · exact absurd hparsing (not_parsing_of_drained hidle.drained)
    · rw [hdrop] at ha
      cases ha
  | saving profile s hsaving hpng hanswers hhandled hreloads hsuccess herror hshown =>
    rcases hsaving.reported with ⟨-, op, hreport⟩ | ⟨success, hsaved, -⟩
    · exact absurd trivial (settled_of_drained hidle.drained (fun _ => True) _ op hreport)
    · rw [hanswers, List.self_eq_append_right] at hsaved
      cases hsaved
  | torn hdrained hordered hreloads hfailed =>
    rcases hfailed with ⟨a, ha, -⟩ | ⟨-, herror⟩
    · rw [hdrop] at ha
      cases ha
    · exact Or.inr ⟨herror, hordered⟩

theorem agree_of_copies {w : World Image} (hw : Copies kit w) (hquiet : Quiet w) : Agree kit w := by
  rcases idle_copies hw hquiet.idle with ⟨profile, hreloading, hprofile, hshows⟩ | ⟨herror, -⟩
  · exact ⟨hprofile.trans hreloading.profile_eq.symm,
      fun hview => ⟨profile, hprofile, hshows hview⟩⟩
  · exact absurd herror hquiet.error_ne

/-- A step of the queue keeps the copies as they should be. -/
theorem queue_copies (hkit : kit.RoundTrips) {w : World Image} (hw : Copies kit w)
    {e : OperationProfileManager.Event Image Access} (he : Undisturbed w.queue e)
    (h : OperationProfileManager.step kit FileUtils w.queue e = some q) :
    Copies kit { w with queue := q } := by
  cases hw with
  | whole profile hreloading hanswered hstored herror hshows =>
    obtain ⟨hq, ⟨henv, hparsing⟩ | ⟨hprofile, c, hanswers⟩⟩ := step_reloading hreloading he h
    · refine .whole profile hq ?_ ?_ herror ?_
      · simp only [henv]
        exact hanswered
      · simp only [henv, Succeeded]
        exact hstored.imp_right (Or.imp_right (Or.imp_left hparsing))
      · simp only [henv, Succeeded]
        exact hshows
    · have hmem {a : ℕ × Answer Image} (ha : a ∈ q.env.answers.drop w.handled) :
          a ∈ w.queue.env.answers.drop w.handled ∨ a = (c, .loaded profile) := by
        rw [hanswers, List.drop_append] at ha
        refine (List.mem_append.mp ha).imp_right fun h => ?_
        exact List.mem_singleton.mp (List.mem_of_mem_drop h)
      refine .whole profile hq ?_ (Or.inl hprofile) herror ?_
      · intro a ha
        rcases hmem ha with hold | rfl
        · exact hanswered a hold
        · intro hsaved
          cases hsaved
      · intro hcases
        refine hshows (hcases.imp_right (Or.imp_right ?_))
        rintro ⟨a, ha, hsaved⟩
        rcases hmem ha with hold | rfl
        · exact ⟨a, hold, hsaved⟩
        · cases hsaved
  | saving profile s hsaving hpng hanswers hhandled hreloads hsuccess herror hshown =>
    obtain ⟨hordered, ⟨hq, hsame⟩ | ⟨hq, c, hsaved⟩ | ⟨hq, c, hsaved⟩⟩ :=
      step_of_saving hkit hsaving hpng hanswers he h
    · refine .saving profile s hq hpng hsame ?_ hreloads hsuccess herror hshown
      rw [hhandled, hanswers, hsame]
    · have hdrop : q.env.answers.drop w.handled = [(c, .saved true)] := by
        rw [hsaved, hhandled, hanswers, List.drop_left]
      refine .whole profile hq ?_ (Or.inr (Or.inr (Or.inr ⟨(c, .saved true), ?_, rfl⟩))) herror
        fun _ => hshown
      · intro a ha
        rw [hdrop] at ha
        rw [List.mem_singleton.mp ha]
        simp
      · rw [hdrop]
        exact List.mem_singleton.mpr rfl
    · refine .torn hq hordered hreloads (Or.inl ⟨(c, .saved false), ?_, rfl, hsuccess, herror⟩)
      rw [hsaved, hhandled, hanswers, List.drop_left]
  | torn hdrained => exact absurd h (step_ne_some_of_drained hdrained he)

section Screens

variable {w : World Image} {s : Screen Image}

/-- The alert of a failed save is open only when nothing is under way. -/
theorem idle_of_error (hw : Copies kit w) (h : w.screen.presented = some .error) : Idle w := by
  cases hw with
  | whole profile hreloading hanswered hstored herror => exact absurd h herror
  | saving profile s hsaving hpng hanswers hhandled hreloads hsuccess herror =>
    exact absurd h herror
  | torn hdrained hordered hreloads hfailed =>
    rcases hfailed with ⟨a, -, -, -, herror⟩ | ⟨hhandled, -⟩
    · exact absurd h herror
    · exact ⟨hdrained, hhandled, hreloads⟩

theorem not_noSave_of_saving {before : ProfileQueue Image} (hs : Saving kit profile before w.queue)
    (hanswers : w.queue.env.answers = before.env.answers) : ¬ NoSave w := by
  intro hno
  rcases hs.reported with ⟨-, op, hreport⟩ | ⟨success, hsaved, -⟩
  · obtain ⟨x, hx, rfl, hlive⟩ := OperationQueue.entry_of_progress hreport
    rcases saving_cases hs hx hlive with ⟨hlt, -⟩ | ⟨-, hop⟩
    · omega
    · have hsettled := hno.settled _ _ hreport
      rw [hop] at hsettled
      exact hsettled trivial
  · rw [hanswers, List.self_eq_append_right] at hsaved
    cases hsaved

/-- What leaves the labels alone, and comes to no view of the profile, keeps the copies. -/
theorem browse_copies (hw : Copies kit w) (hbefore : w.screen.presented ≠ some .error)
    (hname : s.nameLabel = w.screen.nameLabel)
    (hdescription : s.descriptionLabel = w.screen.descriptionLabel)
    (havatar : s.avatarImageView = w.screen.avatarImageView)
    (hstate : s.currentState = w.screen.currentState ∨ s.currentState ≠ .view)
    (hsuccess : s.presented ≠ some .success) (herror : s.presented ≠ some .error) :
    Copies kit { w with screen := s } := by
  have hshows {profile : ProfileViewModel Image} (h : Shows profile w.screen) :
      Shows profile s := by
    rw [Shows, hname, hdescription, havatar]
    exact h
  cases hw with
  | whole profile hreloading hanswered hstored _ hshown =>
    refine .whole profile hreloading hanswered hstored herror fun hcases => hshows (hshown ?_)
    rcases hcases with hview | hpresented | hsucceeded
    · exact Or.inl ((hstate.resolve_right (not_not.mpr hview)).symm.trans hview)
    · exact absurd hpresented hsuccess
    · exact Or.inr (Or.inr hsucceeded)
  | saving profile before hsaving hpng hanswers hhandled hreloads _ _ hshown =>
    exact .saving profile before hsaving hpng hanswers hhandled hreloads hsuccess herror
      (hshows hshown)
  | torn hdrained hordered hreloads hfailed =>
    refine .torn hdrained hordered hreloads (Or.inl ?_)
    rcases hfailed with ⟨a, ha, hsaved, -⟩ | ⟨-, hopen⟩
    · exact ⟨a, ha, hsaved, hsuccess, herror⟩
    · exact absurd hopen hbefore

/-- An edit without a save under way keeps the copies, since it leaves the view. -/
theorem edit_copies (hw : Copies kit w) (hno : NoSave w)
    (hbefore : w.screen.presented ≠ some .error) (hstate : s.currentState ≠ .view)
    (hsuccess : s.presented ≠ some .success) (herror : s.presented ≠ some .error) :
    Copies kit { w with screen := s } := by
  cases hw with
  | whole profile hreloading hanswered hstored _ hshown =>
    refine .whole profile hreloading hanswered hstored herror ?_
    rintro (hview | hpresented | ⟨a, ha, hsaved⟩)
    · exact absurd hview hstate
    · exact absurd hpresented hsuccess
    · exact absurd hsaved (hno.answered a ha true)
  | saving profile before hsaving hpng hanswers =>
    exact absurd hno (not_noSave_of_saving hsaving hanswers)
  | torn hdrained hordered hreloads hfailed =>
    rcases hfailed with ⟨a, ha, hsaved, -⟩ | ⟨-, hopen⟩
    · refine absurd hsaved (hno.answered a ?_ false)
      rw [ha]
      exact List.mem_singleton.mpr rfl
    · exact absurd hopen hbefore

theorem newProfile_shows (kit : UIKit Image) (havatar : s.avatarImageView ≠ none) :
    Shows (newProfile kit s) (changeView .saving s) := by
  obtain ⟨avatar, havatar⟩ := Option.ne_none_iff_exists'.mp havatar
  refine ⟨by rw [changeView_nameLabel, newProfile], by rw [changeView_descriptionLabel, newProfile],
    ?_⟩
  rw [changeView_avatarImageView, newProfile, havatar, Option.some_or, Option.getD_some]

/-- A save made when nothing is under way. -/
theorem save_copies (hw : Copies kit w) (hidle : Idle w) (havatar : s.avatarImageView ≠ none)
    (hpng : kit.pngData (newProfile kit s).avatar ≠ none) (hpresented : s.presented = none) :
    Copies kit { w with
      screen := (saveProfileChanges kit s).1
      queue := request kit w.queue (saveProfileChanges kit s).2 } := by
  have hordered : Ordered w.queue := by
    rcases idle_copies hw hidle with ⟨profile, hreloading, -⟩ | ⟨-, hordered⟩
    · exact hreloading.ordered
    · exact hordered
  have hnone : (changeView .saving s).presented = none := by rw [changeView_presented, hpresented]
  have hcall : OperationProfileManager.step kit FileUtils w.queue (.save (newProfile kit s)) =
      some (saveProfile kit (newProfile kit s) w.queue) := rfl
  refine .saving (newProfile kit s) w.queue (save_saving hidle.drained hordered hcall) hpng rfl
    hidle.handled_eq hidle.reloads_eq ?_ ?_ (newProfile_shows kit havatar)
  · rw [saveProfileChanges, hnone]
    exact (Option.some_ne_none _).symm
  · rw [saveProfileChanges, hnone]
    exact (Option.some_ne_none _).symm

/-- The labels are taken from the store, which has the profile when nothing is under way. -/
theorem cancel_copies (hw : Copies kit w) (hidle : Idle w)
    (hpresented : w.screen.presented = none) :
    Copies kit { w with
      screen := (cancelButtonTapped w.queue.env.profile w.screen).1
      queue := request kit w.queue (cancelButtonTapped w.queue.env.profile w.screen).2 } ∧
    (cancelButtonTapped w.queue.env.profile w.screen).1.avatarImageView ≠ none := by
  have hqueue : request kit w.queue (cancelButtonTapped w.queue.env.profile w.screen).2 =
      w.queue := by
    rw [cancelButtonTapped]
    split
    · exact cancelAllOperations_of_drained hidle.drained
    · rfl
  rw [hqueue]
  rcases idle_copies hw hidle with ⟨profile, hreloading, hprofile, -⟩ | ⟨herror, -⟩
  · have hshows : Shows profile (cancelButtonTapped w.queue.env.profile w.screen).1 := by
      refine ⟨?_, ?_, ?_⟩ <;> simp [cancelButtonTapped, hprofile]
    have hnone : (cancelButtonTapped w.queue.env.profile w.screen).1.presented = none := by
      simp [cancelButtonTapped, hpresented]
    have hdrop : w.queue.env.answers.drop w.handled = [] := by
      rw [hidle.handled_eq, List.drop_length]
    constructor
    · refine .whole profile hreloading ?_ (Or.inl hprofile) ?_ fun _ => hshows
      · intro a ha
        rw [hdrop] at ha
        cases ha
      · rw [hnone]
        exact (Option.some_ne_none _).symm
    · rw [hshows.2.2]
      exact Option.some_ne_none _
  · rw [hpresented] at herror
    cases herror

/-- The success is closed: the labels show the profile that was saved. -/
theorem ok_copies (hw : Copies kit w) (h : w.screen.presented = some .success) :
    Copies kit { w with screen := changeView .view { w.screen with presented := none } } := by
  cases hw with
  | whole profile hreloading hanswered hstored _ hshown =>
    refine .whole profile hreloading hanswered hstored ?_ fun _ => ?_
    · rw [changeView_presented]
      exact (Option.some_ne_none _).symm
    · rw [Shows, changeView_nameLabel, changeView_descriptionLabel, changeView_avatarImageView]
      exact hshown (Or.inr (Or.inl h))
  | saving profile before hsaving hpng hanswers hhandled hreloads hsuccess =>
    exact absurd h hsuccess
  | torn hdrained hordered hreloads hfailed =>
    rcases hfailed with ⟨a, -, -, hsuccess, -⟩ | ⟨-, hopen⟩
    · exact absurd h hsuccess
    · rw [h] at hopen
      cases hopen

theorem user_copies [DecidableEq Image] {t : World Image} (hw : Copies kit w)
    (havatar : w.screen.avatarImageView ≠ none) {e : UserEvent Image}
    (he : Careful kit w (.user e)) (h : step kit w (.user e) = some t) :
    Copies kit t ∧ t.screen.avatarImageView ≠ none := by
  have hchecked (s : Screen Image) : (checkProfileDataForChanges s).currentState ≠ .view :=
    checkProfileDataForChanges_ne (by decide) (by decide) s
  obtain ⟨⟨s, r⟩, hresult, rfl⟩ := Option.map_eq_some_iff.mp h
  have hne {a b : Presented} (hab : a ≠ b) (hpresented : w.screen.presented = some a) :
      w.screen.presented ≠ some b := by
    rw [hpresented]
    exact fun heq => hab (Option.some.inj heq)
  have hnone {a : Presented} (hpresented : w.screen.presented = none) :
      w.screen.presented ≠ some a := by
    rw [hpresented]
    exact (Option.some_ne_none _).symm
  cases e with
  | editButton =>
    obtain ⟨⟨hpresented, -⟩, heq⟩ := Option.ite_none_right_eq_some.mp hresult
    obtain ⟨rfl, rfl⟩ := Prod.mk.inj (Option.some.inj heq)
    refine ⟨browse_copies hw (hnone hpresented) (by simp) (by simp) (by simp) (Or.inr (by simp))
      ?_ ?_, by simpa using havatar⟩ <;> simp [hpresented]
  | cancelButton =>
    obtain ⟨⟨hpresented, -⟩, heq⟩ := Option.ite_none_right_eq_some.mp hresult
    obtain ⟨rfl, rfl⟩ := Prod.mk.inj (Option.some.inj heq)
    exact cancel_copies hw he hpresented
  | saveButton =>
    obtain ⟨⟨hpresented, -⟩, heq⟩ := Option.ite_none_right_eq_some.mp hresult
    have heq := Option.some.inj heq
    unfold saveButtonTapped at heq
    cases hstate : w.screen.currentState <;> rw [hstate] at heq <;>
      obtain ⟨rfl, rfl⟩ := Prod.mk.inj heq
    case hasChanges =>
      obtain ⟨hidle, hpng⟩ := he hstate
      refine ⟨save_copies hw hidle havatar hpng hpresented, ?_⟩
      simpa [saveProfileChanges] using havatar
    case view =>
      refine ⟨browse_copies hw (hnone hpresented) (by simp) (by simp) (by simp) (Or.inr (by simp))
        ?_ ?_, by simpa using havatar⟩ <;> simp [hpresented]
    all_goals
      exact ⟨browse_copies hw (hnone hpresented) rfl rfl rfl (Or.inl rfl) (hnone hpresented)
        (hnone hpresented), havatar⟩
  | nameChanged text =>
    obtain ⟨⟨hpresented, -⟩, heq⟩ := Option.ite_none_right_eq_some.mp hresult
    obtain ⟨rfl, rfl⟩ := Prod.mk.inj (Option.some.inj heq)
    refine ⟨edit_copies hw he (hnone hpresented) (hchecked _) ?_ ?_, ?_⟩
    · simp [checkProfileDataForChanges, hpresented]
    · simp [checkProfileDataForChanges, hpresented]
    · simpa [checkProfileDataForChanges] using havatar
  | nameReturned =>
    obtain ⟨⟨hpresented, -⟩, heq⟩ := Option.ite_none_right_eq_some.mp hresult
    obtain ⟨rfl, rfl⟩ := Prod.mk.inj (Option.some.inj heq)
    refine ⟨browse_copies hw (hnone hpresented) ?_ ?_ ?_ (Or.inr (hchecked _)) ?_ ?_, ?_⟩
    · simp [checkProfileDataForChanges]
    · simp [checkProfileDataForChanges]
    · simp [checkProfileDataForChanges]
    · simp [checkProfileDataForChanges, hpresented]
    · simp [checkProfileDataForChanges, hpresented]
    · simpa [checkProfileDataForChanges] using havatar
  | descriptionChanged text =>
    obtain ⟨⟨hpresented, -⟩, heq⟩ := Option.ite_none_right_eq_some.mp hresult
    obtain ⟨rfl, rfl⟩ := Prod.mk.inj (Option.some.inj heq)
    refine ⟨edit_copies hw he (hnone hpresented) (hchecked _) ?_ ?_, ?_⟩
    · simp [checkProfileDataForChanges, hpresented]
    · simp [checkProfileDataForChanges, hpresented]
    · simpa [checkProfileDataForChanges] using havatar
  | avatar =>
    obtain ⟨hpresented, heq⟩ := Option.ite_none_right_eq_some.mp hresult
    obtain ⟨rfl, rfl⟩ := Prod.mk.inj (Option.some.inj heq)
    refine ⟨browse_copies hw (hnone hpresented) rfl rfl rfl (Or.inl rfl) ?_ ?_, havatar⟩ <;>
      simp [present, hpresented]
  | choose picker =>
    obtain ⟨⟨hpresented, hpicker⟩, heq⟩ := Option.ite_none_right_eq_some.mp hresult
    obtain ⟨rfl, rfl⟩ := Prod.mk.inj (Option.some.inj heq)
    refine ⟨browse_copies hw (hne (by decide) hpresented) rfl rfl rfl (Or.inl rfl) ?_ ?_,
      havatar⟩ <;> rcases hpicker with rfl | rfl <;> simp
  | dismiss =>
    obtain ⟨hpresented, heq⟩ := Option.ite_none_right_eq_some.mp hresult
    obtain ⟨rfl, rfl⟩ := Prod.mk.inj (Option.some.inj heq)
    refine ⟨browse_copies hw ?_ rfl rfl rfl (Or.inl rfl) (by simp) (by simp), havatar⟩
    rcases hpresented with hpresented | hpresented | hpresented
    · exact hne (by decide) hpresented
    · exact hne (by decide) hpresented
    · exact hne (by decide) hpresented
  | imagePicked image =>
    obtain ⟨hpresented, heq⟩ := Option.ite_none_right_eq_some.mp hresult
    obtain ⟨rfl, rfl⟩ := Prod.mk.inj (Option.some.inj heq)
    refine ⟨edit_copies hw he (hne (by decide) hpresented) ?_ ?_ ?_, Option.some_ne_none _⟩
    · simp [imagePickerController]
    · simp [imagePickerController]
    · simp [imagePickerController]
  | networkImagePicked image =>
    obtain ⟨-, heq⟩ := Option.ite_none_right_eq_some.mp hresult
    obtain ⟨rfl, rfl⟩ := Prod.mk.inj (Option.some.inj heq)
    obtain ⟨hidle, hpng⟩ := he
    refine ⟨save_copies hw hidle (Option.some_ne_none image) hpng rfl, ?_⟩
    simp
  | ok =>
    rw [handle] at hresult
    split at hresult
    · rename_i hsuccess
      obtain ⟨rfl, rfl⟩ := Prod.mk.inj (Option.some.inj hresult)
      exact ⟨ok_copies hw hsuccess, by simpa using havatar⟩
    · exact absurd (Option.ite_none_right_eq_some.mp hresult).1 he
  | retry =>
    obtain ⟨hpresented, heq⟩ := Option.ite_none_right_eq_some.mp hresult
    obtain ⟨rfl, rfl⟩ := Prod.mk.inj (Option.some.inj heq)
    refine ⟨save_copies hw (idle_of_error hw hpresented) havatar he rfl, ?_⟩
    simpa [saveProfileChanges] using havatar

/-- The main queue deals with an answer: that of a save is shown. -/
theorem main_copies [DecidableEq Image] {t : World Image} (hw : Copies kit w)
    (he : Careful kit w .main) (h : step kit w .main = some t) : Copies kit t := by
  obtain ⟨⟨c, answer⟩, ha, rfl⟩ := Option.map_eq_some_iff.mp h
  obtain ⟨hlt, hget⟩ := List.getElem?_eq_some_iff.mp ha
  have hdrop : w.queue.env.answers.drop w.handled =
      (c, answer) :: w.queue.env.answers.drop (w.handled + 1) := by
    rw [List.drop_eq_getElem_cons hlt, hget]
  cases hw with
  | whole profile hreloading hanswered hstored herror hshown =>
    have hlater : ∀ a ∈ w.queue.env.answers.drop (w.handled + 1), a.2 ≠ .saved false := by
      intro a ha
      apply hanswered a
      rw [hdrop]
      exact List.mem_cons_of_mem _ ha
    have hfirst : answer ≠ .saved false := by
      apply hanswered (c, answer)
      rw [hdrop]
      exact List.mem_cons_self ..
    have hother (hanswer : answer ≠ .saved true) :
        Copies kit { w with handled := w.handled + 1 } := by
      have hsucceeded : Succeeded { w with handled := w.handled + 1 } ↔ Succeeded w := by
        constructor
        · rintro ⟨a, ha, hsaved⟩
          refine ⟨a, ?_, hsaved⟩
          rw [hdrop]
          exact List.mem_cons_of_mem _ ha
        · rintro ⟨a, ha, hsaved⟩
          rw [hdrop] at ha
          rcases List.mem_cons.mp ha with rfl | hrest
          · exact absurd hsaved hanswer
          · exact ⟨a, hrest, hsaved⟩
      refine .whole profile hreloading hlater ?_ herror ?_
      · rw [hsucceeded]
        exact hstored
      · rw [hsucceeded]
        exact hshown
    cases answer with
    | saved success =>
      cases success with
      | false => exact absurd rfl hfirst
      | true =>
        have hsucceeded : Succeeded w := by
          refine ⟨(c, .saved true), ?_, rfl⟩
          rw [hdrop]
          exact List.mem_cons_self ..
        refine .whole profile hreloading hlater (Or.inr (Or.inl (Nat.succ_pos _))) ?_
          fun _ => hshown (Or.inr (Or.inr hsucceeded))
        change w.screen.presented.or (some .success) ≠ some .error
        cases hpresented : w.screen.presented with
        | none => simp
        | some presented =>
          rw [hpresented] at herror
          exact herror
    | read profile => exact hother (fun heq => by cases heq)
    | loaded profile => exact hother (fun heq => by cases heq)
    | defaulted profile => exact hother (fun heq => by cases heq)
  | saving profile before hsaving hpng hanswers hhandled => omega
  | torn hdrained hordered hreloads hfailed =>
    rcases hfailed with ⟨a, hlast, hsaved, -, -⟩ | ⟨hhandled, -⟩
    · rw [hlast, List.cons.injEq] at hdrop
      obtain ⟨rfl, hrest⟩ := hdrop
      obtain rfl : answer = .saved false := hsaved
      have hnone := he _ ha rfl
      refine .torn hdrained hordered hreloads (Or.inr ⟨?_, ?_⟩)
      · have hle := List.drop_eq_nil_iff.mp hrest.symm
        change w.handled + 1 = w.queue.env.answers.length
        omega
      · simp [answered, completed, present, hnone]
    · omega

/-- A read of the files, where none of them is being saved. -/
theorem readProfile_copies (hw : Copies kit w) (hno : NoSave w)
    (hbefore : w.screen.presented ≠ some .error) :
    Copies kit { w with queue := readProfile w.queue } := by
  cases hw with
  | whole profile hreloading hanswered hstored herror hshown =>
    exact .whole profile (readProfile_reloading hreloading) hanswered
      (Or.inr (Or.inr (Or.inl (readProfile_parsing w.queue)))) herror hshown
  | saving profile before hsaving hpng hanswers =>
    exact absurd hno (not_noSave_of_saving hsaving hanswers)
  | torn hdrained hordered hreloads hfailed =>
    rcases hfailed with ⟨a, ha, hsaved, -⟩ | ⟨-, hopen⟩
    · refine absurd hsaved (hno.answered a ?_ false)
      rw [ha]
      exact List.mem_singleton.mpr rfl
    · exact absurd hopen hbefore

/-- The conversation list loads the profile after a save that succeeded. -/
theorem reload_copies [DecidableEq Image] {t : World Image} (hw : Copies kit w)
    (h : step kit w .reload = some t) : Copies kit t := by
  obtain ⟨hpositive, heq⟩ := Option.ite_none_right_eq_some.mp h
  obtain rfl := Option.some.inj heq
  cases hw with
  | whole profile hreloading hanswered hstored herror hshown =>
    exact .whole profile (readProfile_reloading hreloading) hanswered
      (Or.inr (Or.inr (Or.inl (readProfile_parsing w.queue)))) herror hshown
  | saving profile before hsaving hpng hanswers hhandled hreloads => omega
  | torn hdrained hordered hreloads => omega

end Screens

/-- The copies of the profile, with an avatar on the screen. -/
def Kept (kit : UIKit Image) (w : World Image) : Prop :=
  Copies kit w ∧ w.screen.avatarImageView ≠ none

theorem step_kept [DecidableEq Image] (hkit : kit.RoundTrips) {w t : World Image}
    {e : Event Image} (hw : Kept kit w) (he : Careful kit w e) (h : step kit w e = some t) :
    Kept kit t := by
  obtain ⟨hw, havatar⟩ := hw
  cases e with
  | user event => exact user_copies hw havatar he h
  | viewWillDisappear =>
    obtain rfl := Option.some.inj h
    rw [cancelAllOperations_of_drained he]
    exact ⟨hw, havatar⟩
  | readProfile =>
    obtain rfl := Option.some.inj h
    exact ⟨readProfile_copies hw he.1 he.2, havatar⟩
  | start index =>
    obtain ⟨q, hq, rfl⟩ := Option.map_eq_some_iff.mp h
    have hstart : Undisturbed w.queue (.operation (.start index)) := trivial
    exact ⟨queue_copies hkit hw hstart hq, havatar⟩
  | run index access =>
    obtain ⟨q, hq, rfl⟩ := Option.map_eq_some_iff.mp h
    have hrun : Undisturbed w.queue (.operation (.main index access)) := he
    exact ⟨queue_copies hkit hw hrun hq, havatar⟩
  | main =>
    refine ⟨main_copies hw he h, ?_⟩
    obtain ⟨⟨c, answer⟩, -, rfl⟩ := Option.map_eq_some_iff.mp h
    cases answer with
    | saved success => cases success <;> simpa [answered, completed, present] using havatar
    | read profile => exact havatar
    | loaded profile => exact havatar
    | defaulted profile => exact havatar
  | reload =>
    refine ⟨reload_copies hw h, ?_⟩
    obtain ⟨-, heq⟩ := Option.ite_none_right_eq_some.mp h
    obtain rfl := Option.some.inj heq
    exact havatar

theorem start_kept (hq : Reloading kit profile q) (hprofile : q.env.profile = some profile) :
    Kept kit (World.start kit q) := by
  have hdrop : (World.start kit q).queue.env.answers.drop (World.start kit q).handled = [] :=
    List.drop_length
  have hshows : Shows profile (World.start kit q).screen := by
    refine ⟨?_, ?_, ?_⟩ <;> simp [World.start, viewDidLoad, setupProfile, hprofile]
  constructor
  · refine .whole profile hq ?_ (Or.inl hprofile) ?_ fun _ => hshows
    · intro a ha
      rw [hdrop] at ha
      cases ha
    · simp [World.start, viewDidLoad, setupProfile, Screen.storyboard]
  · rw [hshows.2.2]
    exact Option.some_ne_none _

/-- From a state in which the store has the profile of the files, in every state of a
careful run in which nothing is pending it has it again, and the view shows it. -/
theorem copiesAgree [DecidableEq Image] (hkit : kit.RoundTrips) {disk : Files}
    (hreachable : Reachable (OperationProfileManager.step kit FileUtils) (State.empty kit disk) q)
    (hq : q.Drained) (hstored : q.env.profile = some profile)
    (hprofile : profileOf kit (contents q.env.disk) = some profile) {es : List (Event Image)}
    {w : World Image} (hes : Along (step kit) (Careful kit) (World.start kit q) es)
    (hrun : run (step kit) (World.start kit q) es = some w) (hquiet : Quiet w) :
    Agree kit w := by
  have hordered : Ordered q :=
    reachable_invariant (empty_ordered kit disk) (fun _ _ _ hs h => step_ordered hs h) hreachable
  have hw : Kept kit w :=
    run_invariant_along (fun _ _ _ hw he h => step_kept hkit hw he h)
      (start_kept (drained_reloading hq hordered hprofile) hstored) hes hrun
  exact agree_of_copies hw.1 hquiet

/-- The operations at the places run one after the other. -/
def through (places : List ℕ) : List (Event Image) :=
  places.flatMap fun i => [.start i, .run i .succeeds]

theorem through_careful [DecidableEq Image] {places : List ℕ} (w : World Image) :
    Along (step kit) (Careful kit) w (through places) := by
  refine along_of_forall_mem ?_ w
  intro e he w
  obtain ⟨i, -, hi⟩ := List.mem_flatMap.mp he
  simp only [List.mem_cons, List.not_mem_nil, or_false] at hi
  rcases hi with rfl | rfl
  · trivial
  · exact fun _ _ _ => rfl

/-- The name is edited and saved, and the conversation list loads the profile. -/
def edited : List (Event (Option Data)) :=
  [.user .editButton, .user (.nameChanged "Nikita"), .user .saveButton]

def shown : List (Event (Option Data)) := [.main, .user .ok, .reload]

def savedEdit : List (Event (Option Data)) :=
  edited ++ (through [4, 5, 6, 7] ++ (shown ++ (through [8, 9, 10, 11] ++ [.main])))

theorem main_careful {w : World Image} {c : ℕ} {answer : Answer Image}
    (h : w.queue.env.answers[w.handled]? = some (c, answer)) (hsaved : answer ≠ .saved false) :
    Careful kit w .main := by
  intro a ha heq
  obtain rfl := Option.some.inj (h.symm.trans ha)
  exact absurd heq hsaved

theorem edited_careful {q : ProfileQueue (Option Data)} (hq : q.Drained)
    (hstored : q.env.profile = some ⟨"Nick", "Kazantsev", some .empty⟩) :
    Along (step plainKit) (Careful plainKit) (World.start plainKit q) edited := by
  refine ⟨trivial, ?_⟩
  intro w hw
  obtain rfl := Option.some.inj hw
  refine ⟨⟨settled_of_drained hq IsSave, ?_⟩, ?_⟩
  · intro a ha
    have hnil : q.env.answers.drop q.env.answers.length = [] := List.drop_length
    exact absurd (hnil ▸ ha) List.not_mem_nil
  intro w hw
  obtain rfl := Option.some.inj hw
  refine ⟨?_, fun _ _ => trivial⟩
  intro _
  refine ⟨⟨hq, rfl, rfl⟩, ?_⟩
  simp [newProfile, World.start, viewDidLoad, setupProfile, hstored, checkProfileDataForChanges,
    plainKit]

/-- The files of a profile, and the store after a readProfile. -/
theorem loaded_complete : ∃ q : ProfileQueue (Option Data),
    run (OperationProfileManager.step plainKit FileUtils)
      (State.empty plainKit ProfileDefaults.complete)
      (.readProfile :: runThrough [0, 1, 2, 3]) = some q ∧ q.Drained ∧
    q.env.profile = some ⟨"Nick", "Kazantsev", some .empty⟩ ∧
    profileOf plainKit (contents q.env.disk) = some ⟨"Nick", "Kazantsev", some .empty⟩ := by
  have hs : (State.empty plainKit ProfileDefaults.complete :
      ProfileQueue (Option Data)).Drained := fun _ hx => absurd hx List.not_mem_nil
  obtain ⟨q, hrun⟩ : ∃ q, run (OperationProfileManager.step plainKit FileUtils)
      (State.empty plainKit ProfileDefaults.complete)
      (.readProfile :: runThrough [0, 1, 2, 3]) = some q := ⟨_, rfl⟩
  have hq : q.Drained := by
    obtain rfl := Option.some.inj hrun
    unfold OperationQueue.State.Drained
    decide
  have halone : Alone plainKit (State.empty plainKit ProfileDefaults.complete) .readProfile q :=
    alone_runThrough hrun
  obtain ⟨hreloading, hstored⟩ :=
    reloading_of_alone hs (empty_ordered _ _) ProfileDefaults.profileOf_complete halone hq
  exact ⟨q, hrun, hq, hstored, hreloading.profile_eq⟩

/-- The saved edit in its stages, of which the main queue and the end need a look. -/
theorem savedEdit_stages {q : ProfileQueue (Option Data)}
    (hread : run (OperationProfileManager.step plainKit FileUtils)
      (State.empty plainKit ProfileDefaults.complete)
      (.readProfile :: runThrough [0, 1, 2, 3]) = some q) :
    ∃ w₁ w₂ w₃ w₄ w, run (step plainKit) (World.start plainKit q) edited = some w₁ ∧
      run (step plainKit) w₁ (through [4, 5, 6, 7]) = some w₂ ∧
      run (step plainKit) w₂ shown = some w₃ ∧
      run (step plainKit) w₃ (through [8, 9, 10, 11]) = some w₄ ∧
      run (step plainKit) w₄ [.main] = some w ∧
      Along (step plainKit) (Careful plainKit) w₂ shown ∧
      Along (step plainKit) (Careful plainKit) w₄ [.main] ∧ Quiet w := by
  obtain rfl := Option.some.inj hread
  refine ⟨_, _, _, _, _, rfl, rfl, rfl, rfl, rfl, ?_, ?_, ?_⟩
  · refine ⟨main_careful rfl nofun, fun w hw => ?_⟩
    have hpresented : w.screen.presented = some .success := by
      obtain rfl := Option.some.inj hw
      rfl
    refine ⟨fun herror => ?_, fun _ _ => ⟨trivial, fun _ _ => trivial⟩⟩
    rw [hpresented] at herror
    cases herror
  · exact ⟨main_careful rfl nofun, fun _ _ => trivial⟩
  · refine ⟨⟨?_, rfl, rfl⟩, ?_, ?_⟩
    · unfold OperationQueue.State.Drained
      decide
    · decide
    · decide

theorem copiesAgree_savedEdit :
    ∃ q w, run (OperationProfileManager.step plainKit FileUtils)
        (State.empty plainKit ProfileDefaults.complete)
        (.readProfile :: runThrough [0, 1, 2, 3]) = some q ∧
      run (step plainKit) (World.start plainKit q) savedEdit = some w ∧ Agree plainKit w := by
  obtain ⟨q, hread, hq, hstored, hprofile⟩ := loaded_complete
  obtain ⟨w₁, w₂, w₃, w₄, w, h₁, h₂, h₃, h₄, h₅, hshown, hmain, hquiet⟩ := savedEdit_stages hread
  have hrun : run (step plainKit) (World.start plainKit q) savedEdit = some w := by
    rw [savedEdit, run_append_of_run h₁, run_append_of_run h₂, run_append_of_run h₃,
      run_append_of_run h₄, h₅]
  have hcareful : Along (step plainKit) (Careful plainKit) (World.start plainKit q) savedEdit := by
    rw [savedEdit, along_append_of_run h₁, along_append_of_run h₂, along_append_of_run h₃,
      along_append_of_run h₄]
    exact ⟨edited_careful hq hstored, through_careful _, hshown, through_careful _, hmain⟩
  exact ⟨q, w, hread, hrun,
    copiesAgree plainKit_roundTrips ⟨_, hread⟩ hq hstored hprofile hcareful hrun hquiet⟩

def failedEdit : List (Event (Option Data)) :=
  edited ++ [.start 4, .run 4 (.fails none), .start 5, .run 5 (.fails none), .start 6,
    .run 6 (.fails none), .start 7, .run 7 .succeeds, .main, .user .ok]

/-- After a save that failed the view shows the name that was not saved. -/
theorem not_copiesAgree :
    ¬ ∀ (disk : Files) (q : ProfileQueue (Option Data)) (es : List (Event (Option Data)))
        (w : World (Option Data)),
      Alone plainKit (State.empty plainKit disk) .readProfile q → q.Drained →
        run (step plainKit) (World.start plainKit q) es = some w → Quiet w → Agree plainKit w := by
  intro hall
  obtain ⟨q, hread, hq, hstored, -⟩ := loaded_complete
  obtain ⟨w, hw⟩ : ∃ w, run (step plainKit) (World.start plainKit q) failedEdit = some w := by
    obtain rfl := Option.some.inj hread
    exact ⟨_, rfl⟩
  have hquiet : Quiet w := by
    obtain rfl := Option.some.inj hread
    obtain rfl := Option.some.inj hw
    refine ⟨⟨?_, rfl, rfl⟩, ?_, ?_⟩
    · unfold OperationQueue.State.Drained
      decide
    · decide
    · decide
  have hstate : w.screen.currentState = .view ∧ w.screen.nameLabel = "Nikita" ∧
      w.queue.env.profile.map ProfileViewModel.name = some "Nick" := by
    obtain rfl := Option.some.inj hread
    obtain rfl := Option.some.inj hw
    exact ⟨rfl, rfl, rfl⟩
  obtain ⟨hview, hlabel, hname⟩ := hstate
  have hagree := hall _ q failedEdit w (alone_runThrough hread) hq hw hquiet
  obtain ⟨profile, hprofile, hshows, -⟩ := hagree.labels hview
  rw [hprofile, Option.map_some, Option.some.injEq] at hname
  rw [hlabel, hname] at hshows
  exact absurd hshows (by decide)

end TinkoffChat.ProfileCopies

import TinkoffChat.ThemeDataStore

/-!
The theme over launches of the application. A launch reads the file and opens the list only
then, so nothing can be tapped before. Settings screens come and go over the list; the
completion of a tap highlights its option on the screen that was tapped, and gives the list
the colours of the theme that is in memory by then. A new process knows only the file.
-/
namespace TinkoffChat.ThemeLaunches

open ProfileFiles PartialRuns
open ThemeDataStore hiding Event step Settled

/-- The splash screen has put its read on the queue, or has what it delivers, or is gone. -/
inductive Splash
  | reading | delivered | redirected
  deriving DecidableEq

/-- A process. The settings screens are numbered and a tap bears the number of its screen;
the look is that of the list. The writes of former processes are logged. -/
structure App where
  splash : Splash
  launched : Theme
  theme : Theme
  queue : DispatchGroups.State Theme Access Files
  taps : List (ℕ × Theme)
  shown : ℕ
  screens : ℕ
  settings : Bool
  highlighted : Theme
  look : Theme
  restyles : ℕ
  earlier : List (ℕ × Theme × Access)

/-- A process that has just been started. -/
def App.launch (files : Files) (earlier : List (ℕ × Theme × Access)) : App :=
  ⟨.reading, .Default, .Default, .new files, [], 0, 0, false, .Default, .Default, 0, earlier⟩

inductive Event
  | readFile (access : Access)
  | redirect
  | openSettings
  | closeSettings
  | tap (option : Theme)
  | queue (event : DispatchGroups.Event Access)
  | main
  | restyle
  | relaunch

/-- `ThemeDataStore.readTheme`: the field is set if there is a theme in the file. -/
def readFile (access : Access) (s : App) : App :=
  let found := read (FileUtils.read themeStyle access s.queue.disk)
  { s with
    splash := .delivered
    launched := found.getD .Default
    theme := found.getD s.theme }

/-- The completion of a tap on the main queue. -/
def completed (tap : ℕ × Theme) (success : Bool) (s : App) : App :=
  if success then
    { s with
      shown := s.shown + 1
      highlighted := if tap.1 = s.screens then highlight tap.2.rawValue s.highlighted
        else s.highlighted
      look := s.theme
      restyles := s.restyles + 1 }
  else { s with shown := s.shown + 1 }

def step (s : App) : Event → Option App
  | .readFile access => if s.splash = .reading then some (readFile access s) else none
  | .redirect =>
    if s.splash = .delivered then some { s with splash := .redirected, look := s.theme } else none
  | .openSettings =>
    if s.splash = .redirected ∧ s.settings = false then
      some { s with settings := true, screens := s.screens + 1, highlighted := s.theme }
    else none
  | .closeSettings => if s.settings then some { s with settings := false } else none
  | .tap option =>
    if s.settings then
      some { s with
        theme := Theme.ofInt option.rawValue
        queue := s.queue.enter [Theme.ofInt option.rawValue]
        taps := s.taps ++ [(s.screens, option)] }
    else none
  | .queue event => (DispatchGroups.step saveBlock s.queue event).map fun q => { s with queue := q }
  | .main => s.queue.completions[s.shown]?.bind fun c =>
      s.taps[c.1]?.map fun tap => completed tap c.2 s
  | .restyle =>
    if s.restyles = 0 then none else some { s with look := s.theme, restyles := s.restyles - 1 }
  | .relaunch => some (.launch s.queue.disk (s.earlier ++ s.queue.ran))

/-- What is read from the file when these writes have run. -/
def lastWritten (start : Theme) (ran : List (ℕ × Theme × Access)) : Theme :=
  (ran.getLast?.map fun r => themeLeft r.2.1 r.2.2).getD start

theorem lastWritten_append_singleton (start : Theme) (ran : List (ℕ × Theme × Access)) (i : ℕ)
    (theme : Theme) (access : Access) :
    lastWritten start (ran ++ [(i, theme, access)]) = themeLeft theme access := by
  rw [lastWritten, List.getLast?_append, List.getLast?_singleton, Option.some_or,
    Option.map_some, Option.getD_some]

/-- What the copies of the theme are in every state. -/
structure Recorded (start : Theme) (s : App) : Prop where
  file_eq : readTheme (s.queue.disk themeStyle) = lastWritten start (s.earlier ++ s.queue.ran)
  theme_eq : s.theme = (s.taps.getLast?.map Prod.snd).getD s.launched
  reading : s.splash = .reading → s.launched = .Default
  launched_eq : s.launched = .Default ∨ s.launched = lastWritten start s.earlier
  idle : s.splash ≠ .redirected → s.queue = .new s.queue.disk ∧ s.taps = [] ∧ s.shown = 0 ∧
    s.restyles = 0 ∧ s.settings = false ∧ s.screens = 0
  groups_length : s.queue.groups.length = s.taps.length
  completed_lt : ∀ c ∈ s.queue.completions, c.1 < s.taps.length
  notified : ∀ i g, s.queue.groups[i]? = some g → g.notified = true →
    ∃ b, (i, b) ∈ s.queue.completions
  shown_le : s.shown ≤ s.queue.completions.length
  tapped_le : ∀ tap ∈ s.taps, tap.1 ≤ s.screens
  look_eq : s.splash = .redirected → s.taps = [] → s.look = s.theme
  look_shown : ∀ c ∈ s.queue.completions.take s.shown, c.1 + 1 = s.taps.length → c.2 = true →
    s.look = s.theme
  highlighted_eq : s.screens ≠ 0 → (∀ tap ∈ s.taps, tap.1 ≠ s.screens) → s.highlighted = s.theme

section Steps

variable {start : Theme} {s t : App}

theorem launch_recorded {files : Files} {earlier : List (ℕ × Theme × Access)}
    (h : readTheme (files themeStyle) = lastWritten start earlier) :
    Recorded start (.launch files earlier) where
  file_eq := h.trans (congrArg (lastWritten start) (List.append_nil earlier).symm)
  theme_eq := rfl
  reading _ := rfl
  launched_eq := Or.inl rfl
  idle _ := ⟨rfl, rfl, rfl, rfl, rfl, rfl⟩
  groups_length := rfl
  completed_lt _ hc := absurd hc List.not_mem_nil
  notified _ _ hg := nomatch hg
  shown_le := Nat.le_refl 0
  tapped_le _ htap := absurd htap List.not_mem_nil
  look_eq h := nomatch h
  look_shown _ hc := absurd hc List.not_mem_nil
  highlighted_eq h := absurd rfl h

theorem readFile_recorded (hs : Recorded start s) (h : s.splash = .reading) (access : Access) :
    Recorded start (readFile access s) := by
  have hidle := hs.idle (by rw [h]; decide)
  obtain ⟨hqueue, htaps, -, -, -, hscreens⟩ := hidle
  have htheme : s.theme = .Default := by
    rw [hs.theme_eq, htaps]
    exact hs.reading h
  have hran : s.queue.ran = [] := by rw [hqueue]; rfl
  have hcompletions : s.queue.completions = [] := by rw [hqueue]; rfl
  have hfile := hs.file_eq
  rw [hran, List.append_nil] at hfile
  refine { hs with
    theme_eq := ?_
    reading := nofun
    launched_eq := ?_
    idle := fun _ => hs.idle (by rw [h]; decide)
    look_eq := nofun
    look_shown := ?_
    highlighted_eq := fun hne => absurd hscreens hne }
  · simp only [readFile, htaps, htheme, List.getLast?_nil, Option.map_none, Option.getD_none]
  · cases access with
    | succeeds => exact Or.inr hfile
    | fails left => exact Or.inl rfl
  · intro c hc
    simp only [readFile, hcompletions, List.take_nil, List.not_mem_nil] at hc

theorem redirect_recorded (hs : Recorded start s) :
    Recorded start { s with splash := .redirected, look := s.theme } :=
  { hs with
    reading := nofun
    idle := fun hne => absurd rfl hne
    look_eq := fun _ _ => rfl
    look_shown := fun _ _ _ _ => rfl }

theorem openSettings_recorded (hs : Recorded start s) (h : s.splash = .redirected) :
    Recorded start { s with
      settings := true, screens := s.screens + 1, highlighted := s.theme } :=
  { hs with
    idle := fun hne => absurd h hne
    tapped_le := fun tap htap => Nat.le_succ_of_le (hs.tapped_le tap htap)
    highlighted_eq := fun _ _ => rfl }

theorem tap_recorded (hs : Recorded start s) (h : s.settings = true) (option : Theme) :
    Recorded start { s with
      theme := Theme.ofInt option.rawValue
      queue := s.queue.enter [Theme.ofInt option.rawValue]
      taps := s.taps ++ [(s.screens, option)] } := by
  have hredirected : s.splash = .redirected := by
    by_contra hne
    obtain ⟨-, -, -, -, hclosed, -⟩ := hs.idle hne
    rw [hclosed] at h
    cases h
  refine { hs with
    theme_eq := ?_
    idle := fun hne => absurd hredirected hne
    groups_length := ?_
    completed_lt := ?_
    notified := ?_
    tapped_le := ?_
    look_eq := ?_
    look_shown := ?_
    highlighted_eq := ?_ }
  · simp only [ofInt_rawValue, List.getLast?_append, List.getLast?_singleton, Option.some_or,
      Option.map_some, Option.getD_some]
  · simp only [DispatchGroups.State.enter, List.length_append, List.length_singleton,
      hs.groups_length]
  · intro c hc
    exact Nat.lt_of_lt_of_le (hs.completed_lt c hc) (by simp)
  · intro i g hg hnotified
    rcases DispatchGroups.group_enter_cases hg with hold | ⟨-, rfl⟩
    · exact hs.notified i g hold hnotified
    · cases hnotified
  · intro tap htap
    rcases List.mem_append.mp htap with hold | hnew
    · exact hs.tapped_le tap hold
    · rw [List.mem_singleton.mp hnew]
  · simp
  · intro c hc hlast
    -- the new tap has not been completed
    have hlt := hs.completed_lt c (List.mem_of_mem_take hc)
    simp only [List.length_append, List.length_singleton] at hlast
    omega
  · intro _ hother
    exact absurd rfl (hother _ (List.mem_append_right _ (List.mem_singleton_self _)))

theorem redirected_of_group (hs : Recorded start s) {i : ℕ} {g : DispatchGroups.Group Theme}
    (h : s.queue.groups[i]? = some g) : s.splash = .redirected := by
  by_contra hne
  rw [(hs.idle hne).1] at h
  cases h

theorem run_recorded (hs : Recorded start s) {i j : ℕ} {access : Access}
    {q : DispatchGroups.State Theme Access Files}
    (h : DispatchGroups.step saveBlock s.queue (.run i j access) = some q) :
    Recorded start { s with queue := q } := by
  obtain ⟨g, theme, hg, -, rfl⟩ := DispatchGroups.run_eq_some.mp h
  have hredirected := redirected_of_group hs hg
  refine { hs with
    file_eq := ?_
    idle := fun hne => absurd hredirected hne
    groups_length := List.length_set.trans hs.groups_length
    notified := ?_ }
  · simp only [DispatchGroups.State.leave, readTheme_saveBlock, ← List.append_assoc,
      lastWritten_append_singleton]
  · intro k g' hg' hnotified
    rcases DispatchGroups.group_set_cases hg' with ⟨rfl, rfl⟩ | ⟨-, hold⟩
    · exact hs.notified k g hg hnotified
    · exact hs.notified k g' hold hnotified

theorem notify_recorded (hs : Recorded start s) {i : ℕ}
    {q : DispatchGroups.State Theme Access Files}
    (h : DispatchGroups.step saveBlock s.queue (.notify i) = some q) :
    Recorded start { s with queue := q } := by
  obtain ⟨g, hg, -, -, rfl⟩ := DispatchGroups.notify_eq_some.mp h
  have hredirected := redirected_of_group hs hg
  obtain ⟨hlt, -⟩ := List.getElem?_eq_some_iff.mp hg
  refine { hs with
    idle := fun hne => absurd hredirected hne
    groups_length := List.length_set.trans hs.groups_length
    completed_lt := ?_
    notified := ?_
    shown_le := ?_
    look_shown := ?_ }
  · intro c hc
    rcases List.mem_append.mp hc with hold | hnew
    · exact hs.completed_lt c hold
    · rw [List.mem_singleton.mp hnew]
      exact hlt.trans_eq hs.groups_length
  · intro k g' hg' hnotified
    rcases DispatchGroups.group_set_cases hg' with ⟨rfl, rfl⟩ | ⟨-, hold⟩
    · exact ⟨g.success, List.mem_append_right _ (List.mem_singleton_self _)⟩
    · obtain ⟨b, hb⟩ := hs.notified k g' hold hnotified
      exact ⟨b, List.mem_append_left _ hb⟩
  · have hle := hs.shown_le
    simp only [DispatchGroups.State.complete, List.length_append, List.length_singleton]
    omega
  · intro c hc
    simp only [DispatchGroups.State.complete, List.take_append_of_le_length hs.shown_le] at hc
    exact hs.look_shown c hc

theorem main_recorded (hs : Recorded start s) (h : step s .main = some t) : Recorded start t := by
  obtain ⟨c, hc, hmap⟩ := Option.bind_eq_some_iff.mp h
  obtain ⟨tap, htap, rfl⟩ := Option.map_eq_some_iff.mp hmap
  obtain ⟨hlt, -⟩ := List.getElem?_eq_some_iff.mp hc
  have hredirected : s.splash = .redirected := by
    by_contra hne
    rw [(hs.idle hne).1] at hc
    cases hc
  cases hsuccess : c.2 with
  | true =>
    refine { hs with
      idle := fun hne => absurd hredirected hne
      shown_le := hlt
      look_eq := fun _ _ => rfl
      look_shown := fun _ _ _ _ => rfl
      highlighted_eq := ?_ }
    intro hscreens hother
    have hne : tap.1 ≠ s.screens := hother tap (List.mem_of_getElem? htap)
    simp only [completed, if_true, if_neg hne]
    exact hs.highlighted_eq hscreens hother
  | false =>
    refine { hs with
      idle := fun hne => absurd hredirected hne
      shown_le := hlt
      look_shown := ?_ }
    intro c' hc' hlast htrue
    have htake : s.queue.completions.take (s.shown + 1) =
        s.queue.completions.take s.shown ++ [c] := by
      rw [List.take_add_one, hc, Option.toList_some]
    have hmem : c' ∈ s.queue.completions.take s.shown ++ [c] := htake ▸ hc'
    rcases List.mem_append.mp hmem with hold | hnew
    · exact hs.look_shown c' hold hlast htrue
    · obtain rfl := List.mem_singleton.mp hnew
      cases hsuccess.symm.trans htrue

theorem restyle_recorded (hs : Recorded start s) (h : s.restyles ≠ 0) :
    Recorded start { s with look := s.theme, restyles := s.restyles - 1 } := by
  have hredirected : s.splash = .redirected := by
    by_contra hne
    exact h (hs.idle hne).2.2.2.1
  exact { hs with
    idle := fun hne => absurd hredirected hne
    look_eq := fun _ _ => rfl
    look_shown := fun _ _ _ _ => rfl }

theorem step_recorded (s : App) (e : Event) (t : App) (hs : Recorded start s)
    (h : step s e = some t) : Recorded start t := by
  cases e with
  | readFile access =>
    obtain ⟨hreading, heq⟩ := Option.ite_none_right_eq_some.mp h
    obtain rfl := Option.some.inj heq
    exact readFile_recorded hs hreading access
  | redirect =>
    obtain ⟨-, heq⟩ := Option.ite_none_right_eq_some.mp h
    obtain rfl := Option.some.inj heq
    exact redirect_recorded hs
  | openSettings =>
    obtain ⟨⟨hredirected, -⟩, heq⟩ := Option.ite_none_right_eq_some.mp h
    obtain rfl := Option.some.inj heq
    exact openSettings_recorded hs hredirected
  | closeSettings =>
    obtain ⟨-, heq⟩ := Option.ite_none_right_eq_some.mp h
    obtain rfl := Option.some.inj heq
    refine { hs with idle := fun hne => ?_ }
    obtain ⟨hqueue, htaps, hshown, hrestyles, -, hscreens⟩ := hs.idle hne
    exact ⟨hqueue, htaps, hshown, hrestyles, rfl, hscreens⟩
  | tap option =>
    obtain ⟨hopen, heq⟩ := Option.ite_none_right_eq_some.mp h
    obtain rfl := Option.some.inj heq
    exact tap_recorded hs hopen option
  | queue event =>
    obtain ⟨q, hq, rfl⟩ := Option.map_eq_some_iff.mp h
    cases event with
    | run i j access => exact run_recorded hs hq
    | notify i => exact notify_recorded hs hq
  | main => exact main_recorded hs h
  | restyle =>
    obtain ⟨hne, heq⟩ := Option.ite_none_left_eq_some.mp h
    obtain rfl := Option.some.inj heq
    exact restyle_recorded hs hne
  | relaunch =>
    obtain rfl := Option.some.inj h
    exact launch_recorded hs.file_eq

theorem run_launch_recorded {files : Files} {es : List Event}
    (h : run step (.launch files []) es = some s) :
    Recorded (readTheme (files themeStyle)) s :=
  run_invariant step_recorded (launch_recorded rfl) h

/-- The file holds what was written last in any of the processes. The field is the theme
tapped last in this one, or what the launch was told, which no late read overrides; and a new
process that reads the file has the theme written last everywhere, whatever state it follows. -/
theorem theme_launched {files : Files} {es : List Event}
    (h : run step (.launch files []) es = some s) :
    readTheme (s.queue.disk themeStyle) =
        lastWritten (readTheme (files themeStyle)) (s.earlier ++ s.queue.ran) ∧
      s.theme = (s.taps.getLast?.map Prod.snd).getD s.launched ∧
      (s.launched = .Default ∨
        s.launched = lastWritten (readTheme (files themeStyle)) s.earlier) ∧
      ∃ t, run step s [.relaunch, .readFile .succeeds, .redirect, .openSettings] = some t ∧
        t.theme = lastWritten (readTheme (files themeStyle)) (s.earlier ++ s.queue.ran) ∧
        t.look = t.theme ∧ t.highlighted = t.theme ∧ t.launched = t.theme := by
  have hs := run_launch_recorded h
  refine ⟨hs.file_eq, hs.theme_eq, hs.launched_eq, _, rfl, hs.file_eq, rfl, rfl, rfl⟩

/-- Once all is settled and the save of the last tap has not failed, the list has the colours
of the theme in memory, in whatever order the saves ran and were completed. At any time a
settings screen on which nothing has been tapped highlights it, though older taps are completed
late. -/
theorem list_follows {files : Files} {es : List Event}
    (h : run step (.launch files []) es = some s) :
    (s.splash = .redirected → s.queue.Settled → s.shown = s.queue.completions.length →
        (∀ c ∈ s.queue.completions, c.1 + 1 = s.taps.length → c.2 = true) → s.look = s.theme) ∧
      (s.screens ≠ 0 → (∀ tap ∈ s.taps, tap.1 ≠ s.screens) → s.highlighted = s.theme) := by
  have hs := run_launch_recorded h
  refine ⟨fun hredirected hsettled hshown hlast => ?_, hs.highlighted_eq⟩
  rcases List.eq_nil_or_concat s.taps with hnil | ⟨taps, tap, htaps⟩
  · exact hs.look_eq hredirected hnil
  · have hlength : taps.length + 1 = s.taps.length := by
      rw [htaps, List.length_concat]
    have hlt : taps.length < s.queue.groups.length := by
      have hgroups := hs.groups_length
      omega
    have hg := List.getElem?_eq_getElem hlt
    obtain ⟨-, hnotified⟩ := hsettled _ (List.mem_of_getElem? hg)
    obtain ⟨success, hcompleted⟩ := hs.notified taps.length _ hg hnotified
    apply hs.look_shown (taps.length, success) ?_ hlength (hlast _ hcompleted hlength)
    rwa [hshown, List.take_length]

end Steps

/-- The night theme is tapped and written, and the process is killed before the completion. -/
def killedAtNight : List Event :=
  [.readFile .succeeds, .redirect, .openSettings, .tap .Night, .queue (.run 0 0 .succeeds)]

theorem theme_launched_killedAtNight :
    ∃ s, run step (.launch (fun _ => none) []) killedAtNight = some s ∧
      ∃ t, run step s [.relaunch, .readFile .succeeds, .redirect, .openSettings] = some t ∧
        t.theme = .Night ∧ t.look = t.theme := by
  obtain ⟨s, hs⟩ : ∃ s, run step (.launch (fun _ => none) []) killedAtNight = some s := ⟨_, rfl⟩
  obtain ⟨-, -, -, t, ht, htheme, hlook, -⟩ := theme_launched hs
  refine ⟨s, hs, t, ht, htheme.trans ?_, hlook⟩
  obtain rfl := Option.some.inj hs
  rfl

/-- The night theme is tapped, then the day theme, and all goes on the other way round. -/
def otherWayRound : List Event :=
  [.readFile .succeeds, .redirect, .openSettings, .tap .Night, .tap .Day,
    .queue (.run 1 0 .succeeds), .queue (.notify 1), .queue (.run 0 0 .succeeds),
    .queue (.notify 0), .main, .main]

theorem list_follows_otherWayRound :
    ∃ s, run step (.launch (fun _ => none) []) otherWayRound = some s ∧
      s.look = .Day ∧ s.highlighted = .Night := by
  obtain ⟨s, hs⟩ : ∃ s, run step (.launch (fun _ => none) []) otherWayRound = some s := ⟨_, rfl⟩
  have hlook : s.look = s.theme := by
    refine (list_follows hs).1 ?_ ?_ ?_ ?_
    all_goals obtain rfl := Option.some.inj hs
    · rfl
    · intro g hg
      rcases List.mem_cons.mp hg with rfl | hg
      · exact ⟨rfl, rfl⟩
      · obtain rfl := List.mem_singleton.mp hg
        exact ⟨rfl, rfl⟩
    · rfl
    · decide
  refine ⟨s, hs, hlook.trans ?_, ?_⟩
  all_goals
    obtain rfl := Option.some.inj hs
    rfl

end TinkoffChat.ThemeLaunches

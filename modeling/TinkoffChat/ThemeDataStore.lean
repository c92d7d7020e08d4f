import TinkoffChat.DispatchGroups
import TinkoffChat.ProfileFiles
import Mathlib.Algebra.Order.Ring.Int

/-!
The theme of the application: the field of ThemeDataStore, the file written by
GCDThemeManager and the option highlighted on the settings screen. A tap sets
the field at once and puts a write on the concurrent queue; its completion puts
the highlighting on the main queue if the write succeeded. Nothing orders the
writes of different taps, and a failed write is not undone in the field.
-/
namespace TinkoffChat.ThemeDataStore

open ProfileFiles PartialRuns

inductive Theme
  | Default | Day | Night
  deriving DecidableEq

def Theme.rawValue : Theme → ℤ
  | .Default => 0
  | .Day => 1
  | .Night => 2

/-- `Theme.init(_:)` -/
def Theme.ofInt (value : ℤ) : Theme :=
  if value = 0 then .Default
  else if value = 1 then .Day
  else if value = 2 then .Night
  else .Default

/-- The value of a nonempty string of decimal digits. -/
def digits (cs : List Char) : Option ℕ :=
  if cs ≠ [] ∧ cs.all Char.isDigit then
    some (cs.foldl (fun n c => 10 * n + (c.toNat - '0'.toNat)) 0)
  else none

/-- `Int(_:)` of a string: digits after an optional sign, within 64 bits. -/
def int (s : String) : Option ℤ :=
  let value : Option ℤ := match s.toList with
    | '-' :: cs => (digits cs).map fun n => -(n : ℤ)
    | '+' :: cs => (digits cs).map fun n => (n : ℤ)
    | cs => (digits cs).map fun n => (n : ℤ)
  value.filter fun v => -2 ^ 63 ≤ v ∧ v < 2 ^ 63

/-- `ThemeItemsTags.themeStyle.rawValue` -/
def themeStyle : String := "theme"

/-- The block of `GCDThemeManager.save`. -/
def saveBlock (theme : Theme) (access : Access) (files : Files) : Bool × Files :=
  FileUtils.save (data (toString theme.rawValue)) themeStyle access files

/-- `GCDThemeManager.read` from the contents of the file. -/
def read (contents : Option Data) : Option Theme :=
  contents.bind fun d => (string d).bind fun themeRaw => (int themeRaw).map Theme.ofInt

/-- What `readTheme` delivers. -/
def readTheme (contents : Option Data) : Theme := (read contents).getD .Default

/-- The switch over the tag of the tapped view. -/
def highlight (themeId : ℤ) (highlighted : Theme) : Theme :=
  if themeId = 0 then .Default
  else if themeId = 1 then .Day
  else if themeId = 2 then .Night
  else highlighted

/-- The copies of the theme, with the taps made and how many of the completions the main
queue has dealt with. The group of a tap bears the tap's number. -/
structure Settings where
  theme : Theme
  queue : DispatchGroups.State Theme Access Files
  taps : List Theme
  shown : ℕ
  highlighted : Theme

def Settings.start (theme : Theme) (files : Files) : Settings := ⟨theme, .new files, [], 0, theme⟩

/-- `handleTap` of the view of an option, whose tag is the raw value. -/
def handleTap (option : Theme) (s : Settings) : Settings :=
  { s with
    theme := Theme.ofInt option.rawValue
    queue := s.queue.enter [Theme.ofInt option.rawValue]
    taps := s.taps ++ [option] }

inductive Event
  | tap (option : Theme)
  | queue (event : DispatchGroups.Event Access)
  | main

def step (s : Settings) : Event → Option Settings
  | .tap option => some (handleTap option s)
  | .queue event => (DispatchGroups.step saveBlock s.queue event).map fun q => { s with queue := q }
  | .main => s.queue.completions[s.shown]?.bind fun c => s.taps[c.1]?.map fun option =>
      { s with
        shown := s.shown + 1
        highlighted := if c.2 then highlight option.rawValue s.highlighted else s.highlighted }

/-- All writes, completions and main-queue blocks are done. -/
def Settled (s : Settings) : Prop := s.queue.Settled ∧ s.shown = s.queue.completions.length

def Consistent (s : Settings) : Prop :=
  readTheme (s.queue.disk themeStyle) = s.theme ∧ s.highlighted = s.theme

/-- What is read from the file after a write of the theme. -/
def themeLeft (theme : Theme) : Access → Theme
  | .succeeds => theme
  | .fails left => readTheme left

/-- How the write of a tap went, if it has run. -/
def outcome (ran : List (ℕ × Theme × Access)) (tap : ℕ) : Option Access :=
  (ran.find? fun r => r.1 = tap).map fun r => r.2.2

def reported : Access → Bool
  | .succeeds => true
  | .fails _ => false

/-- The last write to run leaves the theme tapped last, and the last success to be
completed is that of a tap on it; without one it is the theme of the start. -/
def InOrder (start : Theme) (s : Settings) : Prop :=
  ∀ option, s.taps.getLast? = some option →
    (∀ r, s.queue.ran.getLast? = some r → themeLeft r.2.1 r.2.2 = option) ∧
    match (s.queue.completions.filter fun c => (outcome s.queue.ran c.1).any reported).getLast? with
    | some c => s.taps[c.1]? = some option
    | none => start = option

theorem ofInt_rawValue (theme : Theme) : Theme.ofInt theme.rawValue = theme := by
  cases theme <;> rfl

theorem highlight_rawValue (theme highlighted : Theme) :
    highlight theme.rawValue highlighted = theme := by
  cases theme <;> rfl

theorem int_rawValue (theme : Theme) : int (toString theme.rawValue) = some theme.rawValue := by
  cases theme <;> decide

/-- A theme that was written is the one that is read. -/
theorem readTheme_saveBlock (theme : Theme) (access : Access) (files : Files) :
    readTheme ((saveBlock theme access files).2 themeStyle) = themeLeft theme access := by
  cases access with
  | succeeds =>
    simp only [saveBlock, data, FileUtils.save, Function.update_self, readTheme, read,
      Option.bind_some, string_toUTF8, int_rawValue, Option.map_some, ofInt_rawValue,
      Option.getD_some, themeLeft]
  | fails left => simp only [saveBlock, data, FileUtils.save, Function.update_self, themeLeft]

theorem saveBlock_reported (theme : Theme) (access : Access) (files : Files) :
    (saveBlock theme access files).1 = reported access := by
  cases access <;> rfl

/-- The write of a tap is either still to run or has run once. -/
def Progress (ran : List (ℕ × Theme × Access)) (tap : ℕ) (g : DispatchGroups.Group Theme) : Prop :=
  (∃ theme, g.blocks = [theme] ∧ outcome ran tap = none) ∨
  (g.blocks = [] ∧ ∃ access, outcome ran tap = some access ∧ g.success = reported access)

/-- What the copies are, by what was tapped, written and completed last. -/
structure Recorded (start : Theme) (s : Settings) : Prop where
  theme_eq : s.theme = s.taps.getLast?.getD start
  file_eq : readTheme (s.queue.disk themeStyle) =
    (s.queue.ran.getLast?.map fun r => themeLeft r.2.1 r.2.2).getD start
  highlighted_eq : s.highlighted =
    (((s.queue.completions.take s.shown).filter Prod.snd).getLast?.bind
      fun c => s.taps[c.1]?).getD start
  shown_le : s.shown ≤ s.queue.completions.length
  groups_length : s.queue.groups.length = s.taps.length
  progress : ∀ tap g, s.queue.groups[tap]? = some g → Progress s.queue.ran tap g
  ran_lt : ∀ r ∈ s.queue.ran, r.1 < s.taps.length
  completed : ∀ c ∈ s.queue.completions,
    ∃ g, s.queue.groups[c.1]? = some g ∧ g.blocks = [] ∧ g.success = c.2

theorem start_recorded {theme : Theme} {files : Files} (h : readTheme (files themeStyle) = theme) :
    Recorded theme (.start theme files) := by
  refine ⟨rfl, h, rfl, Nat.le_refl 0, rfl, ?_, ?_, ?_⟩
  · intro tap g hg
    cases hg
  · intro r hr
    cases hr
  · intro c hc
    cases hc

theorem outcome_append_of_ne {ran : List (ℕ × Theme × Access)} {r : ℕ × Theme × Access} {tap : ℕ}
    (h : r.1 ≠ tap) : outcome (ran ++ [r]) tap = outcome ran tap := by
  have hnone : [r].find? (fun r => decide (r.1 = tap)) = none := by
    rw [List.find?_eq_none]
    intro r' hr'
    rw [List.mem_singleton.mp hr']
    simpa using h
  rw [outcome, List.find?_append, hnone, Option.or_none, outcome]

theorem outcome_append_self {ran : List (ℕ × Theme × Access)} {tap : ℕ} (theme : Theme)
    (access : Access) (h : outcome ran tap = none) :
    outcome (ran ++ [(tap, theme, access)]) tap = some access := by
  have hnone : ran.find? (fun r => decide (r.1 = tap)) = none := Option.map_eq_none_iff.mp h
  rw [outcome, List.find?_append, hnone, Option.none_or,
    List.find?_cons_of_pos (by simp), Option.map_some]

theorem outcome_eq_none_of_lt {ran : List (ℕ × Theme × Access)} {tap : ℕ}
    (h : ∀ r ∈ ran, r.1 < tap) : outcome ran tap = none := by
  rw [outcome, Option.map_eq_none_iff, List.find?_eq_none]
  intro r hr heq
  have hlt := h r hr
  have hr1 : r.1 = tap := of_decide_eq_true heq
  omega

theorem completed_lt {start : Theme} {s : Settings} (hs : Recorded start s) :
    ∀ c ∈ s.queue.completions, c.1 < s.taps.length := by
  intro c hc
  obtain ⟨g, hg, -⟩ := hs.completed c hc
  rw [← hs.groups_length]
  exact (List.getElem?_eq_some_iff.mp hg).1

theorem handleTap_recorded {start : Theme} {s : Settings} (hs : Recorded start s)
    (option : Theme) : Recorded start (handleTap option s) := by
  refine ⟨?_, hs.file_eq, ?_, hs.shown_le, ?_, ?_, ?_, ?_⟩
  · simp only [handleTap, ofInt_rawValue, List.getLast?_append, List.getLast?_singleton,
      Option.some_or, Option.getD_some]
  · refine hs.highlighted_eq.trans ?_
    cases hlast : ((s.queue.completions.take s.shown).filter Prod.snd).getLast? with
    | none => simp only [handleTap, DispatchGroups.State.enter, hlast, Option.bind_none]
    | some c =>
      -- the completions are those of earlier taps
      have hc : c ∈ s.queue.completions :=
        List.mem_of_mem_take (List.mem_of_mem_filter (List.mem_of_getLast? hlast))
      simp only [handleTap, DispatchGroups.State.enter, hlast, Option.bind_some,
        List.getElem?_append_left (completed_lt hs c hc)]
  · simp only [handleTap, DispatchGroups.State.enter, List.length_append, List.length_singleton,
      hs.groups_length]
  · intro tap g hg
    rcases DispatchGroups.group_enter_cases hg with hold | ⟨htap, rfl⟩
    · exact hs.progress tap g hold
    · refine Or.inl ⟨_, rfl, outcome_eq_none_of_lt fun r hr => ?_⟩
      rw [htap, hs.groups_length]
      exact hs.ran_lt r hr
  · intro r hr
    have hlt := hs.ran_lt r hr
    simp only [handleTap, List.length_append, List.length_singleton]
    omega
  · intro c hc
    obtain ⟨g, hg, hempty, hsuccess⟩ := hs.completed c hc
    obtain ⟨hlt, -⟩ := List.getElem?_eq_some_iff.mp hg
    exact ⟨g, (List.getElem?_append_left hlt).trans hg, hempty, hsuccess⟩

theorem run_recorded {start : Theme} {s : Settings} {q : DispatchGroups.State Theme Access Files}
    {i j : ℕ} {access : Access} (hs : Recorded start s)
    (h : DispatchGroups.step saveBlock s.queue (.run i j access) = some q) :
    Recorded start { s with queue := q } := by
  obtain ⟨g, theme, hg, hj, rfl⟩ := DispatchGroups.run_eq_some.mp h
  obtain ⟨hlt, -⟩ := List.getElem?_eq_some_iff.mp hg
  rcases hs.progress i g hg with ⟨theme', hblocks, hnone⟩ | ⟨hempty, -⟩
  · have hj0 : j = 0 ∧ theme' = theme := by
      rw [hblocks, List.getElem?_singleton] at hj
      split at hj
      · exact ⟨‹_›, Option.some.inj hj⟩
      · cases hj
    obtain ⟨rfl, rfl⟩ := hj0
    refine ⟨hs.theme_eq, ?_, hs.highlighted_eq, hs.shown_le, ?_, ?_, ?_, ?_⟩
    · simp only [DispatchGroups.State.leave, readTheme_saveBlock, List.getLast?_append,
        List.getLast?_singleton, Option.some_or, Option.map_some, Option.getD_some]
    · exact List.length_set.trans hs.groups_length
    · intro tap g' hg'
      rcases DispatchGroups.group_set_cases hg' with ⟨rfl, rfl⟩ | ⟨hne, hold⟩
      · refine Or.inr ⟨?_, access, outcome_append_self theme' access hnone,
          saveBlock_reported theme' access s.queue.disk⟩
        simp only [hblocks, List.eraseIdx_cons_zero]
      · have hsame : outcome (s.queue.ran ++ [(i, theme', access)]) tap = _ :=
          outcome_append_of_ne (Ne.symm hne)
        exact (hs.progress tap g' hold).imp
          (fun ⟨theme, hb, hn⟩ => ⟨theme, hb, hsame.trans hn⟩)
          (fun ⟨hb, a, ha, hsuccess⟩ => ⟨hb, a, hsame.trans ha, hsuccess⟩)
    · intro r hr
      rcases List.mem_append.mp hr with hold | hnew
      · exact hs.ran_lt r hold
      · rw [List.mem_singleton.mp hnew]
        exact hlt.trans_eq hs.groups_length
    · intro c hc
      obtain ⟨g', hg', hempty, hsuccess⟩ := hs.completed c hc
      -- a completed group has no block left to run
      have hne : i ≠ c.1 := by
        rintro rfl
        obtain rfl : g = g' := Option.some.inj (hg.symm.trans hg')
        rw [hempty] at hblocks
        cases hblocks
      exact ⟨g', (List.getElem?_set_ne hne).trans hg', hempty, hsuccess⟩
  · rw [hempty] at hj
    cases hj

theorem notify_recorded {start : Theme} {s : Settings}
    {q : DispatchGroups.State Theme Access Files} {i : ℕ} (hs : Recorded start s)
    (h : DispatchGroups.step saveBlock s.queue (.notify i) = some q) :
    Recorded start { s with queue := q } := by
  obtain ⟨g, hg, hempty, -, rfl⟩ := DispatchGroups.notify_eq_some.mp h
  obtain ⟨hlt, -⟩ := List.getElem?_eq_some_iff.mp hg
  have hself : (s.queue.complete i g).groups[i]? = some { g with notified := true } :=
    List.getElem?_set_self hlt
  refine ⟨hs.theme_eq, hs.file_eq, ?_, ?_, ?_, ?_, hs.ran_lt, ?_⟩
  · refine hs.highlighted_eq.trans ?_
    simp only [DispatchGroups.State.complete, List.take_append_of_le_length hs.shown_le]
  · have hle := hs.shown_le
    simp only [DispatchGroups.State.complete, List.length_append, List.length_singleton]
    omega
  · exact List.length_set.trans hs.groups_length
  · intro tap g' hg'
    rcases DispatchGroups.group_set_cases hg' with ⟨rfl, rfl⟩ | ⟨-, hold⟩
    · exact hs.progress tap g hg
    · exact hs.progress tap g' hold
  · intro c hc
    rcases List.mem_append.mp hc with hold | hnew
    · obtain ⟨g', hg', hempty', hsuccess⟩ := hs.completed c hold
      by_cases hi : i = c.1
      · subst hi
        obtain rfl : g = g' := Option.some.inj (hg.symm.trans hg')
        exact ⟨_, hself, hempty, hsuccess⟩
      · exact ⟨g', (List.getElem?_set_ne hi).trans hg', hempty', hsuccess⟩
    · rw [List.mem_singleton.mp hnew]
      exact ⟨_, hself, hempty, rfl⟩

theorem main_recorded {start : Theme} {s t : Settings} (hs : Recorded start s)
    (h : step s .main = some t) : Recorded start t := by
  obtain ⟨c, hc, hoption⟩ := Option.bind_eq_some_iff.mp h
  obtain ⟨option, htap, rfl⟩ := Option.map_eq_some_iff.mp hoption
  obtain ⟨hlt, -⟩ := List.getElem?_eq_some_iff.mp hc
  refine ⟨hs.theme_eq, hs.file_eq, ?_, hlt, hs.groups_length, hs.progress, hs.ran_lt,
    hs.completed⟩
  have htake : s.queue.completions.take (s.shown + 1) =
      s.queue.completions.take s.shown ++ [c] := by
    rw [List.take_add_one, hc, Option.toList_some]
  by_cases hsuccess : c.2 = true
  · simp only [hsuccess, if_true, highlight_rawValue, htake, List.filter_append,
      List.filter_cons_of_pos, List.filter_nil, List.getLast?_append, List.getLast?_singleton,
      Option.some_or, Option.bind_some, htap, Option.getD_some]
  · simp only [hsuccess, htake, List.filter_append, List.filter_cons_of_neg hsuccess,
      List.filter_nil, List.append_nil]
    exact hs.highlighted_eq

theorem step_recorded {start : Theme} (s : Settings) (e : Event) (t : Settings)
    (hs : Recorded start s) (h : step s e = some t) : Recorded start t := by
  cases e with
  | tap option =>
    obtain rfl := Option.some.inj h
    exact handleTap_recorded hs option
  | queue event =>
    obtain ⟨q, hq, rfl⟩ := Option.map_eq_some_iff.mp h
    cases event with
    | run i j access => exact run_recorded hs hq
    | notify i => exact notify_recorded hs hq
  | main => exact main_recorded hs h

/-- A completion reports how the write of its tap went. -/
theorem completed_reported {start : Theme} {s : Settings} (hs : Recorded start s)
    {c : ℕ × Bool} (hc : c ∈ s.queue.completions) :
    c.2 = (outcome s.queue.ran c.1).any reported := by
  obtain ⟨g, hg, hempty, hsuccess⟩ := hs.completed c hc
  rcases hs.progress c.1 g hg with ⟨theme, hblocks, -⟩ | ⟨-, access, haccess, hreported⟩
  · rw [hempty] at hblocks
    cases hblocks
  · rw [haccess, Option.any_some, ← hreported, hsuccess]

theorem ran_ne_nil {start : Theme} {s : Settings} (hs : Recorded start s) (hsettled : Settled s)
    (htaps : s.taps ≠ []) : s.queue.ran ≠ [] := by
  intro hran
  have hlength : 0 < s.queue.groups.length := by
    rw [hs.groups_length]
    exact List.length_pos_iff.mpr htaps
  have hg : s.queue.groups[0]? = some s.queue.groups[0] := List.getElem?_eq_getElem hlength
  rcases hs.progress 0 _ hg with ⟨theme, hblocks, -⟩ | ⟨-, access, haccess, -⟩
  · rw [(hsettled.1 _ (List.mem_of_getElem? hg)).1] at hblocks
    cases hblocks
  · rw [hran] at haccess
    cases haccess

theorem successes_eq {start : Theme} {s : Settings} (hs : Recorded start s) :
    (s.queue.completions.filter fun c => (outcome s.queue.ran c.1).any reported) =
      s.queue.completions.filter Prod.snd :=
  List.filter_congr fun _ hc => (completed_reported hs hc).symm

theorem highlighted_of_settled {start : Theme} {s : Settings} (hs : Recorded start s)
    (hsettled : Settled s) :
    s.highlighted = ((s.queue.completions.filter Prod.snd).getLast?.bind
      fun c => s.taps[c.1]?).getD start := by
  rw [hs.highlighted_eq, hsettled.2, List.take_length]

theorem consistent_of_no_taps {start : Theme} {s : Settings} (hs : Recorded start s)
    (hsettled : Settled s) (htaps : s.taps = []) : Consistent s := by
  have hran : s.queue.ran = [] := by
    rw [List.eq_nil_iff_forall_not_mem]
    intro r hr
    have hlt := hs.ran_lt r hr
    rw [htaps] at hlt
    exact Nat.not_lt_zero _ hlt
  have hcompletions : s.queue.completions = [] := by
    rw [List.eq_nil_iff_forall_not_mem]
    intro c hc
    have hlt := completed_lt hs c hc
    rw [htaps] at hlt
    exact Nat.not_lt_zero _ hlt
  have htheme := hs.theme_eq
  have hfile := hs.file_eq
  have hhighlighted := highlighted_of_settled hs hsettled
  rw [htaps, List.getLast?_nil] at htheme
  rw [hran, List.getLast?_nil] at hfile
  rw [hcompletions] at hhighlighted
  exact ⟨hfile.trans htheme.symm, hhighlighted.trans htheme.symm⟩

/-- Once all is settled, after taps that start from copies that agree, the copies agree
if and only if writes and completions came in order. -/
theorem consistent_iff {theme : Theme} {files : Files} {es : List Event} {t : Settings}
    (hfile : readTheme (files themeStyle) = theme)
    (hrun : run step (.start theme files) es = some t) (hsettled : Settled t) :
    Consistent t ↔ InOrder theme t := by
  have hs : Recorded theme t := run_invariant step_recorded (start_recorded hfile) hrun
  cases hlast : t.taps.getLast? with
  | none =>
    refine iff_of_true ?_ ?_
    · exact consistent_of_no_taps hs hsettled (List.getLast?_eq_none_iff.mp hlast)
    · intro option hoption
      rw [hlast] at hoption
      cases hoption
  | some option =>
    have htheme : t.theme = option := by rw [hs.theme_eq, hlast, Option.getD_some]
    have htaps : t.taps ≠ [] := by
      rintro hnil
      rw [hnil] at hlast
      cases hlast
    obtain ⟨r, hr⟩ : ∃ r, t.queue.ran.getLast? = some r :=
      ⟨_, List.getLast?_eq_some_getLast (ran_ne_nil hs hsettled htaps)⟩
    have hwritten : readTheme (t.queue.disk themeStyle) = themeLeft r.2.1 r.2.2 := by
      rw [hs.file_eq, hr, Option.map_some, Option.getD_some]
    have hhighlighted := highlighted_of_settled hs hsettled
    simp only [Consistent, InOrder, hlast, Option.some.injEq, forall_eq', hr, htheme, hwritten,
      successes_eq hs]
    refine and_congr_right fun _ => ?_
    cases hsuccess : (t.queue.completions.filter Prod.snd).getLast? with
    | none =>
      rw [hsuccess, Option.bind_none, Option.getD_none] at hhighlighted
      rw [hhighlighted]
    | some c =>
      -- the option of a completed tap is among the taps
      have hc : c ∈ t.queue.completions :=
        List.mem_of_mem_filter (List.mem_of_getLast? hsuccess)
      obtain ⟨shown, hshown⟩ : ∃ shown, t.taps[c.1]? = some shown :=
        ⟨_, List.getElem?_eq_getElem (completed_lt hs c hc)⟩
      rw [hsuccess, Option.bind_some, hshown, Option.getD_some] at hhighlighted
      rw [hhighlighted]
      simp only [hshown, Option.some.injEq]

/-- The day theme is tapped, then the night theme twice; the write of the last tap runs first. -/
def nightTwice : List Event := [
  .tap .Day, .tap .Night, .tap .Night,
  .queue (.run 2 0 .succeeds), .queue (.run 0 0 .succeeds), .queue (.run 1 0 .succeeds),
  .queue (.notify 0), .queue (.notify 2), .queue (.notify 1), .main, .main, .main]

theorem consistent_nightTwice :
    ∃ t, run step (.start .Default fun _ => none) nightTwice = some t ∧ Consistent t := by
  obtain ⟨t, ht⟩ : ∃ t, run step (.start .Default fun _ => none) nightTwice = some t := ⟨_, rfl⟩
  have hfile : readTheme ((fun _ => none : Files) themeStyle) = .Default := rfl
  refine ⟨t, ht, (consistent_iff hfile ht ?_).mpr ?_⟩
  all_goals obtain rfl := Option.some.inj ht
  · refine ⟨fun g hg => ?_, rfl⟩
    rcases List.mem_cons.mp hg with rfl | hg
    · exact ⟨rfl, rfl⟩
    rcases List.mem_cons.mp hg with rfl | hg
    · exact ⟨rfl, rfl⟩
    obtain rfl := List.mem_singleton.mp hg
    exact ⟨rfl, rfl⟩
  · rintro option ⟨⟩
    exact ⟨fun r hr => by obtain rfl := Option.some.inj hr; rfl, rfl⟩

/-- The night theme is tapped, then the day theme, and the writes run the other way round:
the day theme is in memory and highlighted, the night theme in the file. -/
theorem not_consistent :
    ¬ ∀ (theme : Theme) (files : Files) (es : List Event) (t : Settings),
      readTheme (files themeStyle) = theme → run step (.start theme files) es = some t →
        Settled t → Consistent t := by
  intro h
  have hnot := h .Default (fun _ => none)
    [.tap .Night, .tap .Day, .queue (.run 1 0 .succeeds), .queue (.run 0 0 .succeeds),
      .queue (.notify 0), .queue (.notify 1), .main, .main] _ rfl rfl
    ⟨fun g hg => by
      rcases List.mem_cons.mp hg with rfl | hg
      · exact ⟨rfl, rfl⟩
      · obtain rfl := List.mem_singleton.mp hg
        exact ⟨rfl, rfl⟩, rfl⟩
  exact absurd hnot.1 (by decide)

end TinkoffChat.ThemeDataStore

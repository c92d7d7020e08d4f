import TinkoffChat.GCDProfileManager
import TinkoffChat.GroupOutcomes

/-!
What the profile manager over the global queue reports to those who save. The
three blocks of a save assign the one variable of the call, and its completion
gets what the last of the three to assign it put there: a write that failed
before is forgotten.
-/
namespace TinkoffChat.GroupedSaves

open PartialRuns ProfileFiles GCDProfileManager GroupOutcomes

variable {Image Disk Access : Type*}

/-- The profiles of the saves, in the order of the calls. -/
def savedProfiles (es : List (Event Image Access)) : List (ProfileViewModel Image) :=
  es.filterMap fun e => match e with
    | .save profile => some profile
    | .queue _ => none

/-- Each call's completion comes once, after the call's three writes, with true exactly if
all of them returned true. -/
structure ReportsExactly (kit : UIKit Image) (fileManager : FileUtilsManager Disk Access)
    (disk : Disk) (profiles : List (ProfileViewModel Image)) (s : State Disk Access) : Prop where
  once : (s.completions.map Prod.fst).Nodup
  after : ∀ i ∈ s.completions.map Prod.fst, ∃ profile, profiles[i]? = some profile ∧
    ((returned (perform fileManager) disk s i).map Prod.fst).Perm (saveBlocks kit profile)
  finished : (∀ g ∈ s.groups, g.blocks = []) →
    (∀ i, DispatchGroups.step (perform fileManager) s (.notify i) = none) →
    ∀ i < profiles.length, i ∈ s.completions.map Prod.fst
  truthful : Truthful (perform fileManager) disk s

/-- A call completes with a failed write only if the last of the three to assign the variable
had failed. -/
def FailureLast (fileManager : FileUtilsManager Disk Access) (disk : Disk)
    (s : State Disk Access) : Event Image Access → Prop
  | .queue (.notify i) => LastFails (perform fileManager) disk s i
  | _ => True

variable {kit : UIKit Image} {fileManager : FileUtilsManager Disk Access} {disk : Disk}
  {s t : State Disk Access}

theorem step_bookkeeping {e : Event Image Access}
    (hs : Bookkeeping (perform fileManager) disk s) (h : step kit fileManager s e = some t) :
    Bookkeeping (perform fileManager) disk t := by
  rcases step_cases h with ⟨profile, rfl, rfl⟩ | ⟨i, j, access, g, write, rfl, hg, hj, rfl⟩ |
    ⟨i, g, rfl, hg, hempty, hnot, rfl⟩
  · exact enter_bookkeeping hs _
  · exact leave_bookkeeping hs hg hj access
  · exact complete_bookkeeping hs hg hempty hnot

theorem step_truthful_iff {e : Event Image Access}
    (hs : Bookkeeping (perform fileManager) disk s) (h : step kit fileManager s e = some t) :
    Truthful (perform fileManager) disk t ↔
      FailureLast fileManager disk s e ∧ Truthful (perform fileManager) disk s := by
  rcases step_cases h with ⟨profile, rfl, rfl⟩ | ⟨i, j, access, g, write, rfl, hg, hj, rfl⟩ |
    ⟨i, g, rfl, hg, hempty, hnot, rfl⟩
  · exact (and_iff_right trivial).symm
  · exact (truthful_leave_iff hs hg hj access _).trans (and_iff_right trivial).symm
  · exact truthful_complete_iff hs hg

theorem step_accounts {e : Event Image Access} {entered : List (List Write)}
    (hs : Bookkeeping (perform fileManager) disk s)
    (ha : Accounts (perform fileManager) disk entered s)
    (h : step kit fileManager s e = some t) :
    Accounts (perform fileManager) disk
      (entered ++ (savedProfiles [e]).map (saveBlocks kit)) t := by
  rcases step_cases h with ⟨profile, rfl, rfl⟩ | ⟨i, j, access, g, write, rfl, hg, hj, rfl⟩ |
    ⟨i, g, rfl, hg, hempty, hnot, rfl⟩
  · exact enter_accounts hs ha _
  · simpa [savedProfiles] using leave_accounts hs ha hg hj access
  · simpa [savedProfiles] using complete_accounts ha hg

theorem run_accounts {es : List (Event Image Access)} {entered : List (List Write)}
    (hs : Bookkeeping (perform fileManager) disk s)
    (ha : Accounts (perform fileManager) disk entered s)
    (h : run (step kit fileManager) s es = some t) :
    Accounts (perform fileManager) disk (entered ++ (savedProfiles es).map (saveBlocks kit)) t := by
  induction es generalizing s entered with
  | nil =>
    obtain rfl : s = t := Option.some.inj h
    rwa [savedProfiles, List.filterMap_nil, List.map_nil, List.append_nil]
  | cons e es ih =>
    obtain ⟨u, hu, hrest⟩ := run_cons_eq_some.mp h
    have hsplit : savedProfiles (e :: es) = savedProfiles [e] ++ savedProfiles es := by
      rw [savedProfiles, savedProfiles, savedProfiles, ← List.filterMap_append,
        List.singleton_append]
    rw [hsplit, List.map_append, ← List.append_assoc]
    exact ih (step_bookkeeping hs hu) (step_accounts hs ha hu) hrest

/-- The calls are reported exactly, in whatever order and way the writes went, if and only
if no call completes after a failed write of its own that another one followed. -/
theorem reportsExactly_iff (kit : UIKit Image) (fileManager : FileUtilsManager Disk Access)
    (disk : Disk) {es : List (Event Image Access)} {s : State Disk Access}
    (h : run (step kit fileManager) (.new disk) es = some s) :
    ReportsExactly kit fileManager disk (savedProfiles es) s ↔
      Along (step kit fileManager) (FailureLast fileManager disk) (.new disk) es := by
  have hnew := new_bookkeeping (perform fileManager) disk
  have hs : Bookkeeping (perform fileManager) disk s :=
    run_invariant (fun _ _ _ hs h => step_bookkeeping hs h) hnew h
  have ha := run_accounts hnew (new_accounts (perform fileManager) disk) h
  rw [List.nil_append] at ha
  have hiff (s : State Disk Access) (e : Event Image Access) (t : State Disk Access)
      (hs : Bookkeeping (perform fileManager) disk s) (h : step kit fileManager s e = some t) :
      Truthful (perform fileManager) disk t ↔
        FailureLast fileManager disk s e ∧ Truthful (perform fileManager) disk s :=
    step_truthful_iff hs h
  have htruthful := run_iff (fun _ _ _ hs h => step_bookkeeping hs h) hiff hnew h
  have hfirst : Truthful (perform fileManager) disk (.new disk) :=
    fun _ _ hmem => absurd hmem List.not_mem_nil
  rw [and_iff_left hfirst] at htruthful
  rw [← htruthful]
  constructor
  · intro hreports
    exact hreports.truthful
  · intro htrue
    refine ⟨hs.completed_nodup, fun i hi => ?_, fun hempty hidle i hi => ?_, htrue⟩
    · obtain ⟨blocks, hblocks, hperm⟩ := completed_perm hs ha hi
      rw [List.getElem?_map, Option.map_eq_some_iff] at hblocks
      obtain ⟨profile, hprofile, rfl⟩ := hblocks
      exact ⟨profile, hprofile, hperm⟩
    · rw [← List.length_map (saveBlocks kit), ha.1] at hi
      exact completed_of_idle hs hempty hidle hi

def nick : ProfileViewModel (Option Data) := ⟨"Nick", "Kazantsev", some .empty⟩

def nikita : ProfileViewModel (Option Data) := ⟨"Nikita", "Kazantsev", some .empty⟩

/-- One save, whose writes are made in their order and go as told. -/
def saveNick (name description avatar : ProfileFiles.Access) :
    List (Event (Option Data) ProfileFiles.Access) :=
  [.save nick, .queue (.run 0 0 name), .queue (.run 0 0 description), .queue (.run 0 0 avatar),
    .queue (.notify 0)]

/-- Two saves at once; the write of the first that runs last fails. -/
def failsLast : List (Event (Option Data) ProfileFiles.Access) := [
  .save nick, .save nikita,
  .queue (.run 1 0 .succeeds), .queue (.run 0 0 .succeeds), .queue (.run 0 0 .succeeds),
  .queue (.run 1 0 .succeeds), .queue (.run 0 0 (.fails none)), .queue (.notify 0),
  .queue (.run 1 0 .succeeds), .queue (.notify 1)]

theorem reportsExactly_failsLast :
    ∃ s, run (step plainKit FileUtils) (.new fun _ => none) failsLast = some s ∧
      s.completions = [(0, false), (1, true)] ∧
      ReportsExactly plainKit FileUtils (fun _ => none) (savedProfiles failsLast) s := by
  obtain ⟨s, hrun⟩ : ∃ s, run (step plainKit FileUtils) (.new fun _ => none) failsLast = some s :=
    ⟨_, rfl⟩
  refine ⟨s, hrun, ?_, (reportsExactly_iff plainKit FileUtils _ hrun).mpr ?_⟩
  · obtain rfl := Option.some.inj hrun
    rfl
  -- only the completions ask anything: the two saves and the six writes do not
  refine (along_cons_of_step rfl).mpr ⟨trivial, (along_cons_of_step rfl).mpr ⟨trivial, ?_⟩⟩
  refine (along_cons_of_step rfl).mpr ⟨trivial, (along_cons_of_step rfl).mpr ⟨trivial, ?_⟩⟩
  refine (along_cons_of_step rfl).mpr ⟨trivial, (along_cons_of_step rfl).mpr ⟨trivial, ?_⟩⟩
  refine (along_cons_of_step rfl).mpr ⟨trivial, (along_cons_of_step rfl).mpr ⟨fun _ => rfl, ?_⟩⟩
  refine (along_cons_of_step rfl).mpr ⟨trivial, (along_cons_of_step rfl).mpr ⟨?_, trivial⟩⟩
  rintro ⟨o, ho, hfailed⟩
  have hall : ∀ o ∈ [(writeOf plainKit nikita .name, true),
      (writeOf plainKit nikita .description, true),
      (writeOf plainKit nikita .avatar, true)], o.2 = true := by simp
  exact absurd (hfailed.symm.trans (hall o ho)) Bool.false_ne_true

/-- The name is not written, and the call reports success. -/
theorem not_reportsExactly :
    ¬ ∀ (es : List (Event (Option Data) ProfileFiles.Access)) (s : State Files ProfileFiles.Access),
      run (step plainKit FileUtils) (.new fun _ => none) es = some s →
        ReportsExactly plainKit FileUtils (fun _ => none) (savedProfiles es) s := by
  intro h
  obtain ⟨s, hrun⟩ : ∃ s, run (step plainKit FileUtils) (.new fun _ => none)
      (saveNick (.fails none) .succeeds .succeeds) = some s := ⟨_, rfl⟩
  have htruthful := (h _ s hrun).truthful
  obtain rfl := Option.some.inj hrun
  have hall := (htruthful 0 true (List.mem_singleton_self _)).mp rfl
  exact Bool.false_ne_true (hall (writeOf plainKit nick .name, false) List.mem_cons_self)

end TinkoffChat.GroupedSaves

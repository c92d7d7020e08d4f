import TinkoffChat.DispatchGroups
import TinkoffChat.ProfileLoads
import TinkoffChat.ProfileReadback

/-!
The profile manager over the global queue. A save puts three writes on it as
one group, a read is a single block. It does without the avatar file, which the
profile manager over operations needs, so the two read different profiles from
files of which only the avatar is missing.
-/
namespace TinkoffChat.GCDProfileManager

open PartialRuns ProfileFiles ProfileTransfers ProfileLoads ProfileReadback

variable {Image Disk Access : Type*}

/-- The write of a block: its data and its file. -/
structure Write where
  data : Option Data
  fileName : String

def writeOf (kit : UIKit Image) (profile : ProfileViewModel Image) (tag : ProfileItemsTags) :
    Write :=
  ⟨encoding kit profile tag, tag.rawValue⟩

/-- The blocks of a save in the order they are put on the queue. -/
def saveBlocks (kit : UIKit Image) (profile : ProfileViewModel Image) : List Write :=
  [writeOf kit profile .name, writeOf kit profile .description, writeOf kit profile .avatar]

/-- A block of a save. -/
def perform (fileManager : FileUtilsManager Disk Access) (write : Write) (access : Access)
    (disk : Disk) : Bool × Disk :=
  fileManager.save write.data write.fileName access disk

abbrev State (Disk Access : Type*) := DispatchGroups.State Write Access Disk

inductive Event (Image Access : Type*)
  | save (profile : ProfileViewModel Image)
  | queue (event : DispatchGroups.Event Access)

def step (kit : UIKit Image) (fileManager : FileUtilsManager Disk Access) (s : State Disk Access) :
    Event Image Access → Option (State Disk Access)
  | .save profile => some (s.enter (saveBlocks kit profile))
  | .queue event => DispatchGroups.step (perform fileManager) s event

/-- All that a step can be: a call, a block of a call's group, or its notification. -/
theorem step_cases {kit : UIKit Image} {fileManager : FileUtilsManager Disk Access}
    {s t : State Disk Access} {e : Event Image Access} (h : step kit fileManager s e = some t) :
    (∃ profile, e = .save profile ∧ t = s.enter (saveBlocks kit profile)) ∨
    (∃ i j access g write, e = .queue (.run i j access) ∧ s.groups[i]? = some g ∧
      g.blocks[j]? = some write ∧
      t = s.leave i g j write access (perform fileManager write access s.disk)) ∨
    ∃ i g, e = .queue (.notify i) ∧ s.groups[i]? = some g ∧ g.blocks = [] ∧
      g.notified = false ∧ t = s.complete i g := by
  cases e with
  | save profile => exact Or.inl ⟨profile, rfl, (Option.some.inj h).symm⟩
  | queue event =>
    have hqueue : DispatchGroups.step (perform fileManager) s event = some t := h
    cases event with
    | run i j access =>
      obtain ⟨g, write, hg, hj, ht⟩ := DispatchGroups.run_eq_some.mp hqueue
      exact Or.inr (Or.inl ⟨i, j, access, g, write, rfl, hg, hj, ht⟩)
    | notify i =>
      obtain ⟨g, hg, hempty, hnot, ht⟩ := DispatchGroups.notify_eq_some.mp hqueue
      exact Or.inr (Or.inr ⟨i, g, rfl, hg, hempty, hnot, ht⟩)

/-- What the block of a read delivers, with an access for each file. -/
def read (kit : UIKit Image) (fileManager : FileUtilsManager Disk Access)
    (access : ProfileItemsTags → Access) (disk : Disk) : Option (ProfileViewModel Image) :=
  match fileManager.read ProfileItemsTags.name.rawValue (access .name) disk,
    fileManager.read ProfileItemsTags.description.rawValue (access .description) disk with
  | some nameData, some descriptionData =>
    match string nameData, string descriptionData with
    | some name, some description =>
      let avatarData := fileManager.read ProfileItemsTags.avatar.rawValue (access .avatar) disk
      some ⟨name, description, (avatarData.bind kit.image).getD kit.blank⟩
    | _, _ => none
  | _, _ => none

/-- The files hold no name or no description. -/
def Nameless (c : Contents) : Prop :=
  (c .name).bind string = none ∨ (c .description).bind string = none

theorem read_eq (kit : UIKit Image) (files : Files) :
    read kit FileUtils (fun _ => .succeeds) files =
      ((contents files .name).bind string).bind fun name =>
        ((contents files .description).bind string).map fun description =>
          ⟨name, description, ((contents files .avatar).bind kit.image).getD kit.blank⟩ := by
  simp only [read, FileUtils, FileUtils.read, contents]
  cases files ProfileItemsTags.name.rawValue with
  | none => rfl
  | some nameData =>
    cases files ProfileItemsTags.description.rawValue with
    | none => cases hname : string nameData <;> simp [hname]
    | some descriptionData =>
      cases hname : string nameData <;> cases hdescription : string descriptionData <;>
        simp [hname, hdescription]

/-- On given files the managers read the same, unless only the avatar is missing. -/
theorem read_eq_profileOf_iff (kit : UIKit Image) (files : Files) :
    read kit FileUtils (fun _ => .succeeds) files = profileOf kit (contents files) ↔
      contents files .avatar ≠ none ∨ Nameless (contents files) := by
  rw [read_eq, profileOf_eq, Nameless]
  cases (contents files .name).bind string with
  | none => simp
  | some name =>
    cases (contents files .description).bind string with
    | none => simp
    | some description => cases contents files .avatar <;> simp

section OperationRead

open OperationProfileManager

variable {kit : UIKit Image} {s t u : ProfileQueue Image}

/-- A read of the other manager, made in the first state: it loads, or it has delivered. -/
def Reads (kit : UIKit Image) (s t : ProfileQueue Image) : Prop :=
  Loads (.caller s.env.calls) False s t ∨
    t.env.answers = s.env.answers ++
      [(s.env.calls, .read (profileOf kit (contents s.env.disk)))] ∧
    Settled (fun _ => True) t

theorem step_reads {e : OperationProfileManager.Event Image ProfileFiles.Access}
    (hs : Reads kit s t) (hordered : Ordered t) (hcalm : t.Calm) (he : Undisturbed t e)
    (h : OperationProfileManager.step kit FileUtils t e = some u) : Reads kit s u := by
  rcases undisturbed_step_cases hcalm he h with
    ⟨-, hprogress, henv, hlayout⟩ | ⟨i, x, access, -, hx, hexecuting, hcancelled, haccess, rfl⟩
  · rcases hs with hloads | ⟨hanswers, hsettled⟩
    · exact Or.inl (loads_congr hloads hprogress henv hlayout)
    · refine Or.inr ⟨?_, ?_⟩
      · rw [henv]
        exact hanswers
      · rw [Settled, hprogress]
        exact hsettled
  · rcases hs with hloads | ⟨-, hsettled⟩
    · rcases loads_cases hloads hx (OperationQueue.Entry.not_finished_of_executing hexecuting) with
        ⟨tag, f, data, hi, hload⟩ | ⟨rfl, hparse⟩
      · have hread := haccess (hload ▸ trivial)
        exact Or.inl (load_loads hloads hx hexecuting hcancelled (Or.inr hread) hi hload).1
      · right
        have hdata : (fun tag => dataAt t.entries (places s tag)) = contents s.env.disk := by
          funext tag
          rcases parse_finds hloads hordered hx hexecuting hparse tag with hfound | ⟨hfailing, -⟩
          · exact hfound
          · exact absurd hfailing id
        have hmain : OperationProfileManager.main kit FileUtils t.entries (s.entries.length + 3) x
          access t.env = _ := main_parse hcancelled hparse
        rw [hdata] at hmain
        constructor
        · rw [← hloads.answers_eq]
          exact congrArg (fun out => out.env.answers) hmain
        · intro j op hlive
          rcases OperationQueue.progress_finish_cases hlive with
            ⟨-, -, hdone⟩ | ⟨hj, hold⟩ | ⟨-, -, a, ha, -⟩
          · cases hdone
          · exact absurd hold (parse_last hloads hordered hx hexecuting hparse hj)
          · rw [hmain] at ha
            cases ha
    · exact absurd trivial (hsettled i x.op (progress_of_executing hx hexecuting))

theorem reads_of_alone (hs : s.Drained) (hordered : Ordered s) (h : Alone kit s .read t) :
    Reads kit s t := by
  obtain ⟨called, es, hcall, hes, hrun⟩ := h
  have hordered := step_ordered hordered hcall
  obtain rfl := Option.some.inj hcall
  exact (run_uncancelled (fun _ _ he => uncancelled_of_undisturbed he)
    (fun _ _ _ hs hordered hcalm he h => step_reads hs hordered hcalm he h)
    (Or.inl (call_loads hs _)) hordered
    (OperationQueue.addOperations_calm (OperationQueue.drained_calm hs) _) hes hrun).1

/-- A read of the files by the one manager delivers what a read by the other delivers, if
and only if the avatar file is there, or they hold no name or no description. -/
theorem readsSame_iff {disk : Files}
    (hreachable : Reachable (OperationProfileManager.step kit FileUtils) (State.empty kit disk) s)
    (hs : s.Drained) (hread : Alone kit s .read t) (ht : t.Drained) :
    t.env.answers = s.env.answers ++
        [(s.env.calls, .read (read kit FileUtils (fun _ => .succeeds) s.env.disk))] ↔
      contents s.env.disk .avatar ≠ none ∨ Nameless (contents s.env.disk) := by
  have hordered : Ordered s :=
    reachable_invariant (empty_ordered kit disk) (fun _ _ _ hs h => step_ordered hs h) hreachable
  rcases reads_of_alone hs hordered hread with hloads | ⟨hanswers, -⟩
  · obtain ⟨op, hunread⟩ := hloads.unread
    exact absurd trivial (settled_of_drained ht (fun _ => True) _ op hunread)
  · rw [hanswers, ← read_eq_profileOf_iff, List.append_cancel_left_eq, List.cons.injEq,
      Prod.mk.injEq, Answer.read.injEq]
    simp only [true_and, and_true]
    exact eq_comm

/-- The files of a profile. -/
def threeFiles : Files
  | "PROFILE_name" => some "Nick".toUTF8
  | "PROFILE_description" => some "Kazantsev".toUTF8
  | "PROFILE_avatar" => some .empty
  | _ => none

theorem readsSame_threeFiles :
    ∃ t, Alone plainKit (State.empty plainKit threeFiles) .read t ∧ t.Drained ∧
      t.env.answers = [(0, .read (some ⟨"Nick", "Kazantsev", some .empty⟩))] := by
  obtain ⟨t, ht⟩ : ∃ t, (OperationProfileManager.step plainKit FileUtils
      (State.empty plainKit threeFiles) .read).bind (fun called =>
        run (OperationProfileManager.step plainKit FileUtils) called
          (runThrough [0, 1, 2, 3])) = some t := ⟨_, rfl⟩
  have hdrained : t.Drained := by
    obtain rfl := Option.some.inj ht
    unfold OperationQueue.State.Drained
    decide
  have hstart : (State.empty plainKit threeFiles).Drained := fun _ => nofun
  have hname : (contents threeFiles .name).bind string = some "Nick" := string_toUTF8 "Nick"
  have hdescription : (contents threeFiles .description).bind string = some "Kazantsev" :=
    string_toUTF8 "Kazantsev"
  have hread : read plainKit FileUtils (fun _ => .succeeds) threeFiles =
      some ⟨"Nick", "Kazantsev", some .empty⟩ := by
    rw [read_eq, hname, hdescription]
    rfl
  have hsame := (readsSame_iff ⟨[], rfl⟩ hstart (alone_runThrough ht) hdrained).mpr
    (Or.inl (Option.some_ne_none _))
  refine ⟨t, alone_runThrough ht, hdrained, hsame.trans ?_⟩
  rw [← hread]
  rfl

/-- A name and a description without an avatar. -/
def noAvatar : Files
  | "PROFILE_name" => some "Nick".toUTF8
  | "PROFILE_description" => some "Kazantsev".toUTF8
  | _ => none

/-- Without its avatar file a profile is read by the one manager and not by the other. -/
theorem not_readsSame :
    ¬ ∀ (disk : Files) (t : ProfileQueue (Option Data)),
      Alone plainKit (State.empty plainKit disk) .read t → t.Drained →
        t.env.answers = [(0, .read (read plainKit FileUtils (fun _ => .succeeds) disk))] := by
  intro h
  obtain ⟨t, ht⟩ : ∃ t, (OperationProfileManager.step plainKit FileUtils
      (State.empty plainKit noAvatar) .read).bind (fun called =>
        run (OperationProfileManager.step plainKit FileUtils) called
          (runThrough [0, 1, 2, 3])) = some t := ⟨_, rfl⟩
  obtain ⟨hdrained, hnothing⟩ : t.Drained ∧ t.env.answers = [(0, .read none)] := by
    obtain rfl := Option.some.inj ht
    refine ⟨?_, rfl⟩
    unfold OperationQueue.State.Drained
    decide
  have hanswers := h noAvatar t (alone_runThrough ht) hdrained
  rw [hnothing, read_eq] at hanswers
  have hname : (contents noAvatar .name).bind string = some "Nick" := string_toUTF8 "Nick"
  have hdescription : (contents noAvatar .description).bind string = some "Kazantsev" :=
    string_toUTF8 "Kazantsev"
  simp [hname, hdescription] at hanswers

end OperationRead

end TinkoffChat.GCDProfileManager

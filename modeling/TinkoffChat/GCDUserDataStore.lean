import TinkoffChat.GCDProfileManager
import TinkoffChat.GroupDraining

/-!
The user data store over the profile manager of the global queue. A save is a
group of three writes; the block of a read goes through the files one by one, with
blocks of other calls in between, and stops at the first that is missing. A read
of the store that finds no profile saves the default one before it answers.
-/
namespace TinkoffChat.GCDUserDataStore

open PartialRuns ProfileFiles GCDProfileManager
open OperationProfileManager (Answer SaveCompletion ReadCompletion initialProfile defaultProfile)

variable {Image Disk Access : Type*}

/-- What the block of a read has got so far. -/
inductive Progress
  | waiting
  | named (nameData : Data)
  | described (name description : String)
  | ended

def Progress.isEnded : Progress → Bool
  | .ended => true
  | _ => false

structure ReadBlock where
  completion : ReadCompletion
  progress : Progress

/-- The queue with the completions of its groups, the blocks of the reads, the stored
profile, and the calls made and answered so far. -/
structure World (Image Disk Access : Type*) where
  manager : GCDProfileManager.State Disk Access
  completions : List SaveCompletion
  reads : List ReadBlock
  profile : Option (ProfileViewModel Image)
  calls : ℕ
  answers : List (ℕ × Answer Image)

def World.init (kit : UIKit Image) (disk : Disk) : World Image Disk Access where
  manager := .new disk
  completions := []
  reads := []
  profile := some (initialProfile kit)
  calls := 0
  answers := []

inductive Event (Image Access : Type*)
  | save (profile : ProfileViewModel Image)
  | read
  | readProfile
  | queue (event : DispatchGroups.Event Access)
  | readFile (index : ℕ) (access : Access)

def Event.IsCall : Event Image Access → Prop
  | .save _ | .read | .readProfile => True
  | .queue _ | .readFile _ _ => False

namespace World

def answer (w : World Image Disk Access) (call : ℕ) (a : Answer Image) :
    World Image Disk Access :=
  { w with answers := w.answers ++ [(call, a)] }

def save (kit : UIKit Image) (profile : ProfileViewModel Image) (completion : SaveCompletion)
    (w : World Image Disk Access) : World Image Disk Access :=
  { w with
    manager := w.manager.enter (saveBlocks kit profile)
    completions := w.completions ++ [completion] }

def read (completion : ReadCompletion) (w : World Image Disk Access) :
    World Image Disk Access :=
  { w with reads := w.reads ++ [⟨completion, .waiting⟩] }

def call (w : World Image Disk Access) : World Image Disk Access := { w with calls := w.calls + 1 }

/-- The completion of a save: the caller's, or the one of the default save, which ignores
how the save went. -/
def completeSave (kit : UIKit Image) (success : Bool) (w : World Image Disk Access) :
    SaveCompletion → World Image Disk Access
  | .caller call => w.answer call (.saved success)
  | .saveDefault call =>
    ({ w with profile := some (defaultProfile kit) } : World Image Disk Access).answer call
      (.defaulted (defaultProfile kit))

def completeRead (kit : UIKit Image) (profile : Option (ProfileViewModel Image))
    (w : World Image Disk Access) : ReadCompletion → World Image Disk Access
  | .caller call => w.answer call (.read profile)
  | .userDataStore call =>
    match profile with
    | some profile =>
      ({ w with profile := some profile } : World Image Disk Access).answer call (.loaded profile)
    | none => w.save kit (defaultProfile kit) (.saveDefault call)

def progressTo (w : World Image Disk Access) (index : ℕ) (block : ReadBlock)
    (progress : Progress) : World Image Disk Access :=
  { w with reads := w.reads.set index { block with progress := progress } }

end World

/-- The next file of a read: the block goes on, or ends with what it delivers. -/
def readFile (kit : UIKit Image) (fileManager : FileUtilsManager Disk Access) (access : Access)
    (disk : Disk) : Progress → Option (Progress ⊕ Option (ProfileViewModel Image))
  | .waiting =>
    match fileManager.read ProfileItemsTags.name.rawValue access disk with
    | some nameData => some (.inl (.named nameData))
    | none => some (.inr none)
  | .named nameData =>
    match fileManager.read ProfileItemsTags.description.rawValue access disk with
    | some descriptionData =>
      match string nameData, string descriptionData with
      | some name, some description => some (.inl (.described name description))
      | _, _ => some (.inr none)
    | none => some (.inr none)
  | .described name description =>
    let avatarData := fileManager.read ProfileItemsTags.avatar.rawValue access disk
    some (.inr (some ⟨name, description, (avatarData.bind kit.image).getD kit.blank⟩))
  | .ended => none

def step (kit : UIKit Image) (fileManager : FileUtilsManager Disk Access)
    (w : World Image Disk Access) : Event Image Access → Option (World Image Disk Access)
  | .save profile => some (w.save kit profile (.caller w.calls)).call
  | .read => some (w.read (.caller w.calls)).call
  | .readProfile => some (w.read (.userDataStore w.calls)).call
  | .queue (.run group block access) =>
    (DispatchGroups.step (perform fileManager) w.manager (.run group block access)).map
      fun manager => { w with manager := manager }
  | .queue (.notify group) =>
    (DispatchGroups.step (perform fileManager) w.manager (.notify group)).bind fun manager =>
      w.manager.groups[group]?.bind fun g => w.completions[group]?.map fun completion =>
        ({ w with manager := manager } : World Image Disk Access).completeSave kit g.success
          completion
  | .readFile index access => w.reads[index]?.bind fun block =>
      (readFile kit fileManager access w.manager.disk block.progress).map fun
        | .inl progress => w.progressTo index block progress
        | .inr profile => (w.progressTo index block .ended).completeRead kit profile block.completion

section Answers

def answersSave (c : ℕ) : SaveCompletion → Bool
  | .caller call => call = c
  | .saveDefault call => call = c

def answersRead (c : ℕ) : ReadCompletion → Bool
  | .caller call => call = c
  | .userDataStore call => call = c

/-- How often the completion of the call has been invoked. -/
def answered (c : ℕ) (w : World Image Disk Access) : ℕ := w.answers.countP fun a => a.1 = c

/-- The groups that answer the call when they notify. -/
def pendingSaves (c : ℕ) (w : World Image Disk Access) : ℕ :=
  (w.manager.groups.zip w.completions).countP fun p => !p.1.notified && answersSave c p.2

/-- The blocks of reads that answer the call when they end. -/
def pendingReads (c : ℕ) (w : World Image Disk Access) : ℕ :=
  w.reads.countP fun block => !block.progress.isEnded && answersRead c block.completion

/-- The answers given to the call and those still to come. -/
def owed (c : ℕ) (w : World Image Disk Access) : ℕ :=
  answered c w + pendingSaves c w + pendingReads c w

/-- Each group has its completion, and each call made is owed one answer. -/
structure Balanced (w : World Image Disk Access) : Prop where
  completions_length : w.manager.groups.length = w.completions.length
  owed_eq : ∀ c, owed c w = if c < w.calls then 1 else 0

/-- Nothing but a new call can happen. -/
def Stuck (kit : UIKit Image) (fileManager : FileUtilsManager Disk Access)
    (w : World Image Disk Access) : Prop :=
  ∀ e, ¬ e.IsCall → step kit fileManager w e = none

variable {kit : UIKit Image} {fileManager : FileUtilsManager Disk Access}
  {w v : World Image Disk Access} {e : Event Image Access} {i : ℕ} {block : ReadBlock}

theorem owed_answer (c : ℕ) (w : World Image Disk Access) (call : ℕ) (a : Answer Image) :
    owed c (w.answer call a) = owed c w + if call = c then 1 else 0 := by
  simp only [owed, answered, pendingSaves, pendingReads, World.answer, List.countP_append,
    List.countP_cons, List.countP_nil, decide_eq_true_eq]
  omega

theorem owed_save (c : ℕ) (hw : w.manager.groups.length = w.completions.length)
    (profile : ProfileViewModel Image) (completion : SaveCompletion) :
    owed c (w.save kit profile completion) =
      owed c w + if answersSave c completion then 1 else 0 := by
  simp only [owed, answered, pendingSaves, pendingReads, World.save, DispatchGroups.State.enter]
  rw [List.zip_append hw, List.countP_append]
  simp only [List.zip_cons_cons, List.zip_nil_right, List.countP_cons, List.countP_nil,
    Bool.not_false, Bool.true_and]
  omega

theorem owed_read (c : ℕ) (w : World Image Disk Access) (completion : ReadCompletion) :
    owed c (w.read completion) = owed c w + if answersRead c completion then 1 else 0 := by
  simp only [owed, answered, pendingSaves, pendingReads, World.read, List.countP_append,
    List.countP_cons, List.countP_nil, Progress.isEnded, Bool.not_false, Bool.true_and]
  omega

theorem owed_completeSave (c : ℕ) (w : World Image Disk Access) (success : Bool)
    (completion : SaveCompletion) :
    owed c (w.completeSave kit success completion) =
      owed c w + if answersSave c completion then 1 else 0 := by
  cases completion with
  | caller call => simp [World.completeSave, owed_answer, answersSave]
  | saveDefault call =>
    rw [World.completeSave, owed_answer]
    simp [answersSave, owed, answered, pendingSaves, pendingReads]

/-- The completion of a read answers, or leaves the answer to the default save. -/
theorem owed_completeRead (c : ℕ) (hw : w.manager.groups.length = w.completions.length)
    (profile : Option (ProfileViewModel Image)) (completion : ReadCompletion) :
    owed c (w.completeRead kit profile completion) =
      owed c w + if answersRead c completion then 1 else 0 := by
  cases completion with
  | caller call => simp [World.completeRead, owed_answer, answersRead]
  | userDataStore call =>
    cases profile with
    | none =>
      rw [World.completeRead, owed_save c hw]
      rfl
    | some profile =>
      rw [World.completeRead, owed_answer]
      simp [answersRead, owed, answered, pendingSaves, pendingReads]

/-- A block that goes on owes what it owed, and one that ends owes nothing more. -/
theorem owed_progressTo (c : ℕ) (hblock : w.reads[i]? = some block)
    (hlive : block.progress.isEnded = false) (progress : Progress) :
    owed c (w.progressTo i block progress) +
        (if progress.isEnded && answersRead c block.completion then 1 else 0) = owed c w := by
  obtain ⟨hlt, hget⟩ := List.getElem?_eq_some_iff.mp hblock
  have hset := List.countP_set
    (p := fun b : ReadBlock => !b.progress.isEnded && answersRead c b.completion)
    (a := { block with progress := progress }) hlt
  have hpos : (if answersRead c block.completion then 1 else 0) ≤ pendingReads c w := by
    split
    · rename_i hanswers
      refine List.countP_pos_iff.mpr ⟨block, List.mem_of_getElem? hblock, ?_⟩
      rw [hlive, hanswers]
      rfl
    · exact Nat.zero_le _
  simp only [hget, hlive, Bool.not_false, Bool.true_and] at hset
  have hshare : pendingReads c (w.progressTo i block progress) +
      (if answersRead c block.completion then 1 else 0) = pendingReads c w +
        if !progress.isEnded && answersRead c block.completion then 1 else 0 := by
    simp only [pendingReads, World.progressTo] at hpos ⊢
    omega
  have hanswered : answered c (w.progressTo i block progress) = answered c w := rfl
  have hsaves : pendingSaves c (w.progressTo i block progress) = pendingSaves c w := rfl
  rw [owed, owed, hanswered, hsaves]
  cases hp : progress.isEnded <;> cases ha : answersRead c block.completion <;>
    simp only [hp, ha, Bool.not_true, Bool.not_false, Bool.and_true, Bool.and_false,
      Bool.false_eq_true, if_true, if_false] at hshare ⊢ <;> omega

private theorem zip_set {α β : Type*} {l : List α} {m : List β} {b : β} (hb : m[i]? = some b)
    (a : α) : (l.set i a).zip m = (l.zip m).set i (a, b) := by
  induction l generalizing m i with
  | nil => rfl
  | cons x l ih =>
    cases m with
    | nil => cases hb
    | cons y m =>
      cases i with
      | zero =>
        obtain rfl : y = b := Option.some.inj hb
        rfl
      | succ i => exact congrArg (List.cons (x, y)) (ih hb)

/-- What a group owes when it is replaced. -/
theorem pendingSaves_set (c : ℕ) {g g' : DispatchGroups.Group Write} {completion : SaveCompletion}
    (hg : w.manager.groups[i]? = some g) (hcompletion : w.completions[i]? = some completion)
    (manager : GCDProfileManager.State Disk Access)
    (hgroups : manager.groups = w.manager.groups.set i g') :
    pendingSaves c { w with manager := manager } +
        (if !g.notified && answersSave c completion then 1 else 0) =
      pendingSaves c w + if !g'.notified && answersSave c completion then 1 else 0 := by
  have hzip : (w.manager.groups.zip w.completions)[i]? = some (g, completion) :=
    List.getElem?_zip_eq_some.mpr ⟨hg, hcompletion⟩
  obtain ⟨hlt, hget⟩ := List.getElem?_eq_some_iff.mp hzip
  have hset := List.countP_set
    (p := fun p : DispatchGroups.Group Write × SaveCompletion =>
      !p.1.notified && answersSave c p.2) (a := (g', completion)) hlt
  have hpos : (if !g.notified && answersSave c completion then 1 else 0) ≤ pendingSaves c w := by
    split
    · rename_i hanswers
      exact List.countP_pos_iff.mpr ⟨_, List.mem_of_getElem? hzip, hanswers⟩
    · exact Nat.zero_le _
  simp only [hget] at hset
  simp only [pendingSaves, hgroups, zip_set hcompletion] at hpos ⊢
  omega

/-- A block of a group answers nobody. -/
theorem owed_run (c : ℕ) (hw : w.manager.groups.length = w.completions.length)
    {group j : ℕ} {access : Access} {manager : GCDProfileManager.State Disk Access}
    (h : DispatchGroups.step (perform fileManager) w.manager (.run group j access) =
      some manager) : owed c { w with manager := manager } = owed c w ∧
        manager.groups.length = w.completions.length := by
  obtain ⟨g, b, hg, hb, rfl⟩ := DispatchGroups.run_eq_some.mp h
  obtain ⟨completion, hcompletion⟩ : ∃ completion, w.completions[group]? = some completion :=
    ⟨_, List.getElem?_eq_getElem (hw ▸ (List.getElem?_eq_some_iff.mp hg).1)⟩
  have hset := pendingSaves_set c hg hcompletion
    (w.manager.leave group g j b access (perform fileManager b access w.manager.disk)) rfl
  refine ⟨?_, (List.length_set ..).trans hw⟩
  simp only [owed, answered, pendingReads] at hset ⊢
  omega

/-- A group that notifies answers the call of its completion. -/
theorem owed_notify (c : ℕ) {group : ℕ} {manager : GCDProfileManager.State Disk Access}
    {g : DispatchGroups.Group Write} {completion : SaveCompletion}
    (h : DispatchGroups.step (perform fileManager) w.manager (.notify group) = some manager)
    (hg : w.manager.groups[group]? = some g)
    (hcompletion : w.completions[group]? = some completion) :
    owed c { w with manager := manager } + (if answersSave c completion then 1 else 0) =
      owed c w := by
  obtain ⟨g', hg', -, hnot, rfl⟩ := DispatchGroups.notify_eq_some.mp h
  obtain rfl : g = g' := Option.some.inj (hg.symm.trans hg')
  have hset := pendingSaves_set c hg hcompletion (w.manager.complete group g) rfl
  simp only [hnot, Bool.not_false, Bool.true_and, Bool.not_true, Bool.false_and,
    Bool.false_eq_true, if_false] at hset
  simp only [owed, answered, pendingReads] at hset ⊢
  omega

theorem readFile_live {access : Access} {disk : Disk} {progress : Progress}
    {result : Progress ⊕ Option (ProfileViewModel Image)}
    (h : readFile kit fileManager access disk progress = some result) :
    progress.isEnded = false ∧ ∀ next, result = .inl next → next.isEnded = false := by
  cases progress with
  | ended => cases h
  | waiting =>
    refine ⟨rfl, ?_⟩
    rintro next rfl
    simp only [readFile] at h
    split at h <;> cases h
    rfl
  | named nameData =>
    refine ⟨rfl, ?_⟩
    rintro next rfl
    simp only [readFile] at h
    split at h
    · split at h <;> cases h
      rfl
    · cases h
  | described name description =>
    refine ⟨rfl, ?_⟩
    rintro next rfl
    cases h

/-- All that a step other than a call can be. -/
theorem step_cases (he : ¬ e.IsCall) (h : step kit fileManager w e = some v) :
    (∃ group block access manager,
      DispatchGroups.step (perform fileManager) w.manager (.run group block access) = some manager ∧
      v = { w with manager := manager }) ∨
    (∃ group manager g completion,
      DispatchGroups.step (perform fileManager) w.manager (.notify group) = some manager ∧
      w.manager.groups[group]? = some g ∧ w.completions[group]? = some completion ∧
      v = ({ w with manager := manager } : World Image Disk Access).completeSave kit g.success
        completion) ∨
    ∃ index access block result, w.reads[index]? = some block ∧
      readFile kit fileManager access w.manager.disk block.progress = some result ∧
      ((∃ progress, result = .inl progress ∧ v = w.progressTo index block progress) ∨
        ∃ profile, result = .inr profile ∧
          v = (w.progressTo index block .ended).completeRead kit profile block.completion) := by
  cases e with
  | save profile => exact absurd trivial he
  | read => exact absurd trivial he
  | readProfile => exact absurd trivial he
  | queue event =>
    cases event with
    | run group block access =>
      obtain ⟨manager, hmanager, rfl⟩ := Option.map_eq_some_iff.mp h
      exact Or.inl ⟨group, block, access, manager, hmanager, rfl⟩
    | notify group =>
      obtain ⟨manager, hmanager, hrest⟩ := Option.bind_eq_some_iff.mp h
      obtain ⟨g, hg, hrest⟩ := Option.bind_eq_some_iff.mp hrest
      obtain ⟨completion, hcompletion, rfl⟩ := Option.map_eq_some_iff.mp hrest
      exact Or.inr (Or.inl ⟨group, manager, g, completion, hmanager, hg, hcompletion, rfl⟩)
  | readFile index access =>
    obtain ⟨block, hblock, hrest⟩ := Option.bind_eq_some_iff.mp h
    obtain ⟨result, hresult, rfl⟩ := Option.map_eq_some_iff.mp hrest
    refine Or.inr (Or.inr ⟨index, access, block, result, hblock, hresult, ?_⟩)
    cases result with
    | inl progress => exact Or.inl ⟨progress, rfl, rfl⟩
    | inr profile => exact Or.inr ⟨profile, rfl, rfl⟩

@[simp] theorem completeSave_calls (success : Bool) (completion : SaveCompletion) :
    (w.completeSave kit success completion).calls = w.calls := by
  cases completion <;> rfl

@[simp] theorem completeRead_calls (profile : Option (ProfileViewModel Image))
    (completion : ReadCompletion) :
    (w.completeRead kit profile completion).calls = w.calls := by
  cases completion <;> cases profile <;> rfl

theorem completeSave_length (success : Bool) (completion : SaveCompletion)
    (hw : w.manager.groups.length = w.completions.length) :
    (w.completeSave kit success completion).manager.groups.length =
      (w.completeSave kit success completion).completions.length := by
  cases completion <;> exact hw

theorem save_length (profile : ProfileViewModel Image) (completion : SaveCompletion)
    (hw : w.manager.groups.length = w.completions.length) :
    (w.save kit profile completion).manager.groups.length =
      (w.save kit profile completion).completions.length := by
  simp [World.save, DispatchGroups.State.enter, hw]

theorem completeRead_length (profile : Option (ProfileViewModel Image))
    (completion : ReadCompletion) (hw : w.manager.groups.length = w.completions.length) :
    (w.completeRead kit profile completion).manager.groups.length =
      (w.completeRead kit profile completion).completions.length := by
  cases completion with
  | caller call => exact hw
  | userDataStore call =>
    cases profile with
    | some profile => exact hw
    | none => exact save_length _ _ hw

/-- A step other than a call changes nothing in what is owed. -/
theorem step_owed (hw : w.manager.groups.length = w.completions.length) (he : ¬ e.IsCall)
    (h : step kit fileManager w e = some v) :
    (∀ c, owed c v = owed c w) ∧ v.calls = w.calls ∧
      v.manager.groups.length = v.completions.length := by
  rcases step_cases he h with ⟨group, j, access, manager, hmanager, rfl⟩ |
    ⟨group, manager, g, completion, hmanager, hg, hcompletion, rfl⟩ |
    ⟨index, access, block, result, hblock, hresult, hv⟩
  · exact ⟨fun c => (owed_run c hw hmanager).1, rfl, (owed_run 0 hw hmanager).2⟩
  · have hlength : manager.groups.length = w.completions.length := by
      obtain ⟨g', -, -, -, rfl⟩ := DispatchGroups.notify_eq_some.mp hmanager
      exact (List.length_set ..).trans hw
    refine ⟨fun c => ?_, completeSave_calls _ _, completeSave_length _ _ hlength⟩
    rw [owed_completeSave]
    exact owed_notify c hmanager hg hcompletion
  · obtain ⟨hlive, hnext⟩ := readFile_live hresult
    rcases hv with ⟨progress, hprogress, rfl⟩ | ⟨profile, -, rfl⟩
    · refine ⟨fun c => ?_, rfl, hw⟩
      have howed := owed_progressTo c hblock hlive progress
      rw [hnext progress hprogress] at howed
      exact howed
    · refine ⟨fun c => ?_, completeRead_calls _ _, completeRead_length _ _ hw⟩
      have howed := owed_progressTo c hblock hlive .ended
      rw [owed_completeRead c (show (w.progressTo index block .ended).manager.groups.length =
        (w.progressTo index block .ended).completions.length from hw)]
      exact howed

theorem call_balanced (hw : Balanced w)
    (hv : v.manager.groups.length = v.completions.length) (hcalls : v.calls = w.calls)
    (howed : ∀ c, owed c v = owed c w + if w.calls = c then 1 else 0) : Balanced v.call := by
  refine ⟨hv, fun c => ?_⟩
  have hsame : owed c v.call = owed c v := rfl
  have hnext : v.call.calls = w.calls + 1 := congrArg (· + 1) hcalls
  rw [hsame, howed, hw.owed_eq, hnext]
  split <;> split <;> split <;> omega

theorem step_balanced (hw : Balanced w) (h : step kit fileManager w e = some v) :
    Balanced v := by
  by_cases he : e.IsCall
  · cases e with
    | save profile =>
      obtain rfl := Option.some.inj h
      refine call_balanced hw (save_length _ _ hw.completions_length) rfl fun c => ?_
      rw [owed_save c hw.completions_length]
      simp [answersSave]
    | read =>
      obtain rfl := Option.some.inj h
      refine call_balanced (v := w.read _) hw hw.completions_length rfl fun c => ?_
      rw [owed_read]
      simp [answersRead]
    | readProfile =>
      obtain rfl := Option.some.inj h
      refine call_balanced (v := w.read _) hw hw.completions_length rfl fun c => ?_
      rw [owed_read]
      simp [answersRead]
    | queue event => exact absurd he id
    | readFile index access => exact absurd he id
  · obtain ⟨howed, hcalls, hlength⟩ := step_owed hw.completions_length he h
    refine ⟨hlength, fun c => ?_⟩
    rw [howed, hw.owed_eq, hcalls]

theorem init_balanced (kit : UIKit Image) (disk : Disk) :
    Balanced (World.init kit disk : World Image Disk Access) :=
  ⟨rfl, fun _ => rfl⟩

end Answers

section Work

/-- The files left to a read, and the save of the default profile it may lead to. -/
def Progress.work : Progress → ℕ
  | .waiting => 6
  | .named _ => 5
  | .described _ _ => 1
  | .ended => 0

def readsWork (reads : List ReadBlock) : ℕ := (reads.map fun block => block.progress.work).sum

def World.work (w : World Image Disk Access) : ℕ := w.manager.work + readsWork w.reads

variable {kit : UIKit Image} {fileManager : FileUtilsManager Disk Access}
  {w v : World Image Disk Access} {e : Event Image Access} {i : ℕ} {block : ReadBlock}

theorem readsWork_set {reads : List ReadBlock} (hblock : reads[i]? = some block)
    (next : ReadBlock) :
    readsWork (reads.set i next) + block.progress.work = readsWork reads + next.progress.work := by
  obtain ⟨hlt, rfl⟩ := List.getElem?_eq_some_iff.mp hblock
  have hold := ((List.getElem_cons_eraseIdx_perm hlt).map fun b => b.progress.work).sum_eq
  have hnew := ((List.set_perm_cons_eraseIdx hlt next).map fun b => b.progress.work).sum_eq
  rw [List.map_cons, List.sum_cons] at hold hnew
  simp only [readsWork]
  omega

theorem work_save (kit : UIKit Image) (profile : ProfileViewModel Image)
    (completion : SaveCompletion) (w : World Image Disk Access) :
    (w.save kit profile completion).work = w.work + 4 := by
  have henter := DispatchGroups.work_enter w.manager (saveBlocks kit profile)
  simp only [World.work, World.save, henter]
  exact Nat.add_right_comm _ 4 _

theorem work_completeSave (success : Bool) (completion : SaveCompletion) :
    (w.completeSave kit success completion).work = w.work := by
  cases completion <;> rfl

/-- What is left to do after a block has gone on, or ended with what it delivers. -/
def workAfter : Progress ⊕ Option (ProfileViewModel Image) → ℕ
  | .inl next => next.work
  | .inr none => 4
  | .inr (some _) => 0

/-- A block gets on by at least one step; one that ends without a profile can pay for the
save of the default one. -/
theorem readFile_work {access : Access} {disk : Disk} {progress : Progress}
    {result : Progress ⊕ Option (ProfileViewModel Image)}
    (h : readFile kit fileManager access disk progress = some result) :
    workAfter result < progress.work := by
  cases progress with
  | ended => cases h
  | waiting =>
    simp only [readFile] at h
    split at h <;> cases h <;> simp [workAfter, Progress.work]
  | named nameData =>
    simp only [readFile] at h
    split at h
    · split at h <;> cases h <;> simp [workAfter, Progress.work]
    · cases h
      simp [workAfter, Progress.work]
  | described name description =>
    cases h
    simp [workAfter, Progress.work]

theorem work_progressTo (hblock : w.reads[i]? = some block) (progress : Progress) :
    (w.progressTo i block progress).work + block.progress.work = w.work + progress.work := by
  have hset := readsWork_set hblock { block with progress := progress }
  have hwork : (w.progressTo i block progress).work =
      w.manager.work + readsWork (w.reads.set i { block with progress := progress }) := rfl
  rw [hwork, World.work, Nat.add_assoc, hset, Nat.add_assoc]

/-- The completion of a read adds the default save, if there is no profile. -/
theorem work_completeRead (profile : Option (ProfileViewModel Image))
    (completion : ReadCompletion) :
    (w.completeRead kit profile completion).work ≤ w.work + workAfter (.inr profile) := by
  cases completion with
  | caller call => exact Nat.le_add_right _ _
  | userDataStore call =>
    cases profile with
    | some profile => exact Nat.le_refl _
    | none => exact Nat.le_of_eq (work_save kit (defaultProfile kit) (.saveDefault call) w)

/-- Every step other than a call leaves less to do. -/
theorem step_work (he : ¬ e.IsCall) (h : step kit fileManager w e = some v) :
    v.work + 1 ≤ w.work := by
  rcases step_cases he h with ⟨group, j, access, manager, hmanager, rfl⟩ |
    ⟨group, manager, g, completion, hmanager, hg, hcompletion, rfl⟩ |
    ⟨index, access, block, result, hblock, hresult, hv⟩
  · have hwork := DispatchGroups.step_work hmanager
    simp only [World.work]
    omega
  · have hwork := DispatchGroups.step_work hmanager
    rw [work_completeSave]
    simp only [World.work]
    omega
  · have hless := readFile_work hresult
    rcases hv with ⟨progress, rfl, rfl⟩ | ⟨profile, rfl, rfl⟩
    · have hwork := work_progressTo hblock progress
      rw [workAfter] at hless
      omega
    · have hwork := work_progressTo hblock .ended
      have hended : Progress.work .ended = 0 := rfl
      have hcomplete := @work_completeRead _ _ _ kit (w.progressTo index block .ended) profile
        block.completion
      omega

theorem run_work {es : List (Event Image Access)} (hes : ∀ e ∈ es, ¬ e.IsCall)
    (h : run (step kit fileManager) w es = some v) : v.work + es.length ≤ w.work := by
  induction es generalizing w with
  | nil =>
    obtain rfl : w = v := Option.some.inj h
    exact Nat.le_refl _
  | cons e es ih =>
    obtain ⟨u, hu, hrest⟩ := run_cons_eq_some.mp h
    have hfirst := step_work (hes e List.mem_cons_self) hu
    have hlater := ih (fun e he => hes e (List.mem_cons_of_mem _ he)) hrest
    rw [List.length_cons]
    omega

theorem readFile_isSome (access : Access) (disk : Disk) {progress : Progress}
    (h : progress.isEnded = false) :
    (readFile kit fileManager access disk progress).isSome := by
  cases progress with
  | ended => cases h
  | waiting =>
    simp only [readFile]
    split <;> rfl
  | named nameData =>
    simp only [readFile]
    split
    · split <;> rfl
    · rfl
  | described name description => rfl

/-- When nothing but a new call can happen, all groups have notified and all reads ended. -/
theorem settled_of_stuck [Nonempty Access]
    (hw : w.manager.groups.length = w.completions.length) (h : Stuck kit fileManager w) :
    w.manager.Settled ∧ ∀ block ∈ w.reads, block.progress.isEnded = true := by
  obtain ⟨access⟩ := ‹Nonempty Access›
  constructor
  · by_contra hnot
    obtain ⟨i, ⟨manager, hmanager⟩ | hrun⟩ :=
      @DispatchGroups.exists_step_of_not_settled _ _ _ (perform fileManager) _ hnot
    · obtain ⟨g, hg, -, -, -⟩ := DispatchGroups.notify_eq_some.mp hmanager
      obtain ⟨completion, hcompletion⟩ : ∃ completion, w.completions[i]? = some completion :=
        ⟨_, List.getElem?_eq_getElem (hw ▸ (List.getElem?_eq_some_iff.mp hg).1)⟩
      have hstuck := h (.queue (.notify i)) id
      simp [step, hmanager, hg, hcompletion] at hstuck
    · obtain ⟨manager, hmanager⟩ := hrun access
      have hstuck := h (.queue (.run i 0 access)) id
      simp [step, hmanager] at hstuck
  · intro block hblock
    by_contra hlive
    obtain ⟨i, hi⟩ := List.mem_iff_getElem?.mp hblock
    obtain ⟨result, hresult⟩ := Option.isSome_iff_exists.mp
      (@readFile_isSome _ _ _ kit fileManager access w.manager.disk _
        (Bool.of_not_eq_true hlive))
    have hstuck := h (.readFile i access) id
    simp [step, hi, hresult] at hstuck

/-- What is settled owes only the answers it has given. -/
theorem answered_of_settled (c : ℕ) (hsettled : w.manager.Settled)
    (hended : ∀ block ∈ w.reads, block.progress.isEnded = true) : owed c w = answered c w := by
  have hsaves : pendingSaves c w = 0 := by
    rw [pendingSaves, List.countP_eq_zero]
    intro p hp
    have hmem := (List.of_mem_zip (a := p.1) (b := p.2) hp).1
    simp [(hsettled p.1 hmem).2]
  have hreads : pendingReads c w = 0 := by
    rw [pendingReads, List.countP_eq_zero]
    intro block hblock
    simp [hended block hblock]
  rw [owed, hsaves, hreads]
  rfl

/-- No completion is called twice, and however the blocks of all calls are interleaved they
come to an end after a bounded number of steps, with one answer to every call. -/
theorem blocks_answer [Nonempty Access] (kit : UIKit Image)
    (fileManager : FileUtilsManager Disk Access) (disk : Disk) {w : World Image Disk Access}
    (h : Reachable (step kit fileManager) (World.init kit disk) w) :
    (∀ c, answered c w ≤ 1) ∧
    ∀ es v, (∀ e ∈ es, ¬ e.IsCall) → run (step kit fileManager) w es = some v →
      es.length ≤ w.work ∧ (Stuck kit fileManager v → ∀ c < v.calls, answered c v = 1) := by
  have hw : Balanced w :=
    reachable_invariant (init_balanced kit disk) (fun _ _ _ hs h => step_balanced hs h) h
  constructor
  · intro c
    have howed := hw.owed_eq c
    rw [owed] at howed
    split at howed <;> omega
  · intro es v hes hrun
    have hwork := run_work hes hrun
    refine ⟨by omega, fun hstuck c hc => ?_⟩
    have hv : Balanced v := run_invariant (fun _ _ _ hs h => step_balanced hs h) hw hrun
    obtain ⟨hsettled, hended⟩ := settled_of_stuck hv.completions_length hstuck
    rw [← answered_of_settled c hsettled hended, hv.owed_eq, if_pos hc]

/-- A read of the store on its own takes six steps at most: one missing file, the writes of
the default profile and the notification, or the three files. -/
theorem blocks_answer_readProfile :
    ∃ w, run (step plainKit FileUtils) (World.init plainKit fun _ => none) [.readProfile] =
        some w ∧
      ∀ es v, (∀ e ∈ es, ¬ e.IsCall) → run (step plainKit FileUtils) w es = some v →
        es.length ≤ 6 ∧ (Stuck plainKit FileUtils v → ∀ c < v.calls, answered c v = 1) := by
  have : Nonempty ProfileFiles.Access := ⟨.succeeds⟩
  obtain ⟨w, hrun⟩ : ∃ w, run (step plainKit FileUtils) (World.init plainKit fun _ => none)
      [.readProfile] = some w := ⟨_, rfl⟩
  have hwork : w.work = 6 := by
    obtain rfl := Option.some.inj hrun
    rfl
  obtain ⟨-, hall⟩ := blocks_answer plainKit FileUtils _ ⟨_, hrun⟩
  rw [hwork] at hall
  exact ⟨w, hrun, hall⟩

end Work

end TinkoffChat.GCDUserDataStore

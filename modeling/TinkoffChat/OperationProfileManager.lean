import TinkoffChat.OperationQueue
import TinkoffChat.ProfileFiles

/-!
The profile manager over the operation queue, and the user data store over it.
A save puts three writes and the operation that reports them on the queue, a
read three loads and the operation that makes a profile of them. Completions
are named by the call they answer; the one that readProfile hands to the
manager saves the default profile when there is nothing to read.
-/
namespace TinkoffChat.OperationProfileManager

open ProfileFiles

variable {Image Disk Access : Type*}

/-- What the completion of a call is invoked with. -/
inductive Answer (Image : Type*)
  | saved (success : Bool)
  | read (profile : Option (ProfileViewModel Image))
  | loaded (profile : ProfileViewModel Image)
  | defaulted (profile : ProfileViewModel Image)

/-- The completion of a save: the caller's own, or the one inside readProfile. -/
inductive SaveCompletion
  | caller (call : ℕ)
  | saveDefault (call : ℕ)

/-- The completion of a read: the caller's own, or the one of readProfile. -/
inductive ReadCompletion
  | caller (call : ℕ)
  | userDataStore (call : ℕ)

inductive Operation
  | loadDataFromDisk (fileName : String) (data : Option Data)
  | writeDataToDisk (data : Option Data) (fileName : String) (success : Bool)
  | writeProfile (operations : List ℕ) (completion : SaveCompletion)
  | readProfile (nameOperation descriptionOperation avatarOperation : ℕ)
      (completion : ReadCompletion)

/-- The disk, the stored profile and the answers given so far. The last two fields
record what each write got from `fileManager.save` and what each save reported. -/
structure Env (Image Disk : Type*) where
  disk : Disk
  profile : Option (ProfileViewModel Image)
  calls : ℕ
  answers : List (ℕ × Answer Image)
  saved : ℕ → Option Bool
  reports : List (List ℕ × Bool)

abbrev Entry := OperationQueue.Entry Operation

abbrev State (Image Disk : Type*) := OperationQueue.State Operation (Env Image Disk)

/-- `WriteDataToDiskOperation.init`. -/
def writeOperation (data : Option Data) (tag : ProfileItemsTags) : Operation :=
  .writeDataToDisk data tag.rawValue data.isSome

def loadOperation (tag : ProfileItemsTags) : Operation := .loadDataFromDisk tag.rawValue none

/-- The operations of a save that stand on the queue from base on. -/
def saveOperations (kit : UIKit Image) (base : ℕ) (profile : ProfileViewModel Image)
    (completion : SaveCompletion) : List (Operation × List ℕ) := [
  (writeOperation (encoding kit profile .description) .description, []),
  (writeOperation (encoding kit profile .name) .name, []),
  (writeOperation (encoding kit profile .avatar) .avatar, []),
  (.writeProfile [base, base + 1, base + 2] completion, [base, base + 1, base + 2])]

def readOperations (base : ℕ) (completion : ReadCompletion) : List (Operation × List ℕ) := [
  (loadOperation .name, []),
  (loadOperation .description, []),
  (loadOperation .avatar, []),
  (.readProfile base (base + 1) (base + 2) completion, [base, base + 1, base + 2])]

/-- The operations of a save by their places. -/
theorem saveOperations_cases {kit : UIKit Image} {base k : ℕ}
    {profile : ProfileViewModel Image}
    {completion : SaveCompletion} {a : Operation × List ℕ}
    (ha : (saveOperations kit base profile completion)[k]? = some a) :
    (k < 3 ∧ ∃ tag, a.1 = writeOperation (encoding kit profile tag) tag) ∨
      (k = 3 ∧ a.1 = .writeProfile [base, base + 1, base + 2] completion) := by
  rcases k with _ | _ | _ | _ | k
  · obtain rfl := Option.some.inj ha
    exact Or.inl ⟨by omega, .description, rfl⟩
  · obtain rfl := Option.some.inj ha
    exact Or.inl ⟨by omega, .name, rfl⟩
  · obtain rfl := Option.some.inj ha
    exact Or.inl ⟨by omega, .avatar, rfl⟩
  · obtain rfl := Option.some.inj ha
    exact Or.inr ⟨rfl, rfl⟩
  · simp [saveOperations] at ha

theorem mem_saveOperations {kit : UIKit Image} {base : ℕ} {profile : ProfileViewModel Image}
    {completion : SaveCompletion} {a : Operation × List ℕ}
    (ha : a ∈ saveOperations kit base profile completion) :
    (∃ tag, a.1 = writeOperation (encoding kit profile tag) tag) ∨
      a.1 = .writeProfile [base, base + 1, base + 2] completion := by
  obtain ⟨k, hk⟩ := List.mem_iff_getElem?.mp ha
  rcases saveOperations_cases hk with ⟨-, hwrite⟩ | ⟨-, hreport⟩
  · exact Or.inl hwrite
  · exact Or.inr hreport

def initialProfile (kit : UIKit Image) : ProfileViewModel Image :=
  ⟨"ФИО", "описание профиля", (kit.named "avatar2").getD kit.blank⟩

def defaultProfile (kit : UIKit Image) : ProfileViewModel Image :=
  ⟨"ФИО", "Описание профиля", (kit.named "avatar2").getD kit.blank⟩

def Env.answer (env : Env Image Disk) (call : ℕ) (a : Answer Image) : Env Image Disk :=
  { env with answers := env.answers ++ [(call, a)] }

def SaveCompletion.invoke (kit : UIKit Image) (success : Bool) (env : Env Image Disk) :
    SaveCompletion → Env Image Disk
  | .caller call => env.answer call (.saved success)
  | .saveDefault call =>
    ({ env with profile := some (defaultProfile kit) }).answer call
      (.defaulted (defaultProfile kit))

/-- A read without a profile makes the user data store save the default one. -/
def ReadCompletion.invoke (kit : UIKit Image) (base : ℕ)
    (profile : Option (ProfileViewModel Image)) (env : Env Image Disk) :
    ReadCompletion → Env Image Disk × List (Operation × List ℕ)
  | .caller call => (env.answer call (.read profile), [])
  | .userDataStore call =>
    match profile with
    | some profile => (({ env with profile := some profile }).answer call (.loaded profile), [])
    | none => (env, saveOperations kit base (defaultProfile kit) (.saveDefault call))

@[simp] theorem SaveCompletion.invoke_disk (kit : UIKit Image) (success : Bool)
    (env : Env Image Disk) (completion : SaveCompletion) :
    (completion.invoke kit success env).disk = env.disk := by
  cases completion <;> rfl

@[simp] theorem SaveCompletion.invoke_calls (kit : UIKit Image) (success : Bool)
    (env : Env Image Disk) (completion : SaveCompletion) :
    (completion.invoke kit success env).calls = env.calls := by
  cases completion <;> rfl

@[simp] theorem SaveCompletion.invoke_saved (kit : UIKit Image) (success : Bool)
    (env : Env Image Disk) (completion : SaveCompletion) :
    (completion.invoke kit success env).saved = env.saved := by
  cases completion <;> rfl

@[simp] theorem SaveCompletion.invoke_reports (kit : UIKit Image) (success : Bool)
    (env : Env Image Disk) (completion : SaveCompletion) :
    (completion.invoke kit success env).reports = env.reports := by
  cases completion <;> rfl

@[simp] theorem ReadCompletion.invoke_disk (kit : UIKit Image) (base : ℕ)
    (profile : Option (ProfileViewModel Image)) (env : Env Image Disk)
    (completion : ReadCompletion) :
    (completion.invoke kit base profile env).1.disk = env.disk := by
  cases completion <;> cases profile <;> rfl

@[simp] theorem ReadCompletion.invoke_calls (kit : UIKit Image) (base : ℕ)
    (profile : Option (ProfileViewModel Image)) (env : Env Image Disk)
    (completion : ReadCompletion) :
    (completion.invoke kit base profile env).1.calls = env.calls := by
  cases completion <;> cases profile <;> rfl

@[simp] theorem ReadCompletion.invoke_saved (kit : UIKit Image) (base : ℕ)
    (profile : Option (ProfileViewModel Image)) (env : Env Image Disk)
    (completion : ReadCompletion) :
    (completion.invoke kit base profile env).1.saved = env.saved := by
  cases completion <;> cases profile <;> rfl

@[simp] theorem ReadCompletion.invoke_reports (kit : UIKit Image) (base : ℕ)
    (profile : Option (ProfileViewModel Image)) (env : Env Image Disk)
    (completion : ReadCompletion) :
    (completion.invoke kit base profile env).1.reports = env.reports := by
  cases completion <;> cases profile <;> rfl

/-- `operation.data` of the load operation at the place. -/
def dataAt (entries : List Entry) (i : ℕ) : Option Data :=
  match entries[i]?.map OperationQueue.Entry.op with
  | some (.loadDataFromDisk _ data) => data
  | _ => none

/-- `operation.success` of the write operation at the place. -/
def successAt (entries : List Entry) (i : ℕ) : Bool :=
  match entries[i]?.map OperationQueue.Entry.op with
  | some (.writeDataToDisk _ _ success) => success
  | _ => false

theorem successAt_eq_true {entries : List Entry} {i : ℕ} : successAt entries i = true ↔
    ∃ x data fileName, entries[i]? = some x ∧ x.op = .writeDataToDisk data fileName true := by
  constructor
  · intro h
    cases hx : entries[i]? with
    | none => simp [successAt, hx] at h
    | some x =>
      rw [successAt, hx, Option.map_some] at h
      cases hop : x.op with
      | writeDataToDisk data fileName success =>
        simp only [hop] at h
        exact ⟨x, data, fileName, rfl, h ▸ hop⟩
      | loadDataFromDisk fileName data => simp [hop] at h
      | writeProfile operations completion => simp [hop] at h
      | readProfile n d a completion => simp [hop] at h
  · rintro ⟨x, data, fileName, hx, hop⟩
    rw [successAt, hx, Option.map_some, hop]

/-- The load operation of a file among the three of a read. -/
def loadAt (nameOperation descriptionOperation avatarOperation : ℕ) : ProfileItemsTags → ℕ
  | .name => nameOperation
  | .description => descriptionOperation
  | .avatar => avatarOperation

/-- The operations of a read by their places. -/
theorem readOperations_cases {base k : ℕ} {completion : ReadCompletion}
    {a : Operation × List ℕ} (ha : (readOperations base completion)[k]? = some a) :
    (∃ tag, base + k = loadAt base (base + 1) (base + 2) tag ∧ a.1 = loadOperation tag) ∨
      (k = 3 ∧ a.1 = .readProfile base (base + 1) (base + 2) completion) := by
  rcases k with _ | _ | _ | _ | k
  · obtain rfl := Option.some.inj ha
    exact Or.inl ⟨.name, rfl, rfl⟩
  · obtain rfl := Option.some.inj ha
    exact Or.inl ⟨.description, rfl, rfl⟩
  · obtain rfl := Option.some.inj ha
    exact Or.inl ⟨.avatar, rfl, rfl⟩
  · obtain rfl := Option.some.inj ha
    exact Or.inr ⟨rfl, rfl⟩
  · simp [readOperations] at ha

theorem mem_readOperations {base : ℕ} {completion : ReadCompletion} {a : Operation × List ℕ}
    (ha : a ∈ readOperations base completion) :
    (∃ tag, a.1 = loadOperation tag) ∨
      a.1 = .readProfile base (base + 1) (base + 2) completion := by
  obtain ⟨k, hk⟩ := List.mem_iff_getElem?.mp ha
  rcases readOperations_cases hk with ⟨tag, -, hload⟩ | ⟨-, hread⟩
  · exact Or.inl ⟨tag, hload⟩
  · exact Or.inr hread

/-- `main` of the four operation classes. -/
def main (kit : UIKit Image) (fileManager : FileUtilsManager Disk Access) :
    OperationQueue.Main Operation Access (Env Image Disk) := fun entries i x access env =>
  match x.op with
  | .loadDataFromDisk fileName _ =>
    if x.isCancelled then ⟨x.op, env, []⟩
    else ⟨.loadDataFromDisk fileName (fileManager.read fileName access env.disk), env, []⟩
  | .writeDataToDisk data fileName _ =>
    if x.isCancelled then ⟨x.op, env, []⟩
    else
      let result := fileManager.save data fileName access env.disk
      ⟨.writeDataToDisk data fileName result.1,
        { env with
          disk := result.2
          saved := Function.update env.saved i (some result.1) }, []⟩
  | .writeProfile operations completion =>
    let hasErrors := operations.any fun j => !successAt entries j
    let success := if x.isCancelled then false else !hasErrors
    ⟨x.op, completion.invoke kit success
      { env with reports := env.reports ++ [(operations, success)] }, []⟩
  | .readProfile nameOperation descriptionOperation avatarOperation completion =>
    if x.isCancelled then ⟨x.op, env, []⟩
    else
      let profile := profileOf kit fun tag =>
        dataAt entries (loadAt nameOperation descriptionOperation avatarOperation tag)
      let result := completion.invoke kit entries.length profile env
      ⟨x.op, result.1, result.2⟩

def State.empty (kit : UIKit Image) (disk : Disk) : State Image Disk :=
  ⟨[], ⟨disk, some (initialProfile kit), 0, [], fun _ => none, []⟩⟩

/-- A new call puts its operations on the queue. -/
def call (s : State Image Disk) (operations : List (Operation × List ℕ)) : State Image Disk :=
  OperationQueue.State.addOperations ⟨s.entries, { s.env with calls := s.env.calls + 1 }⟩ operations

/-- `save` and `read` are calls of the manager, readProfile one of the user data store;
its saveProfile hands the completion on and is `save`. -/
inductive Event (Image Access : Type*)
  | save (profile : ProfileViewModel Image)
  | read
  | readProfile
  | operation (event : OperationQueue.Event Access)

def step (kit : UIKit Image) (fileManager : FileUtilsManager Disk Access) (s : State Image Disk) :
    Event Image Access → Option (State Image Disk)
  | .save profile =>
    some (call s (saveOperations kit s.entries.length profile (.caller s.env.calls)))
  | .read => some (call s (readOperations s.entries.length (.caller s.env.calls)))
  | .readProfile => some (call s (readOperations s.entries.length (.userDataStore s.env.calls)))
  | .operation event => OperationQueue.step (main kit fileManager) s event

theorem step_operation (kit : UIKit Image) (fileManager : FileUtilsManager Disk Access)
    (s : State Image Disk) (event : OperationQueue.Event Access) :
    step kit fileManager s (.operation event) =
      OperationQueue.step (main kit fileManager) s event := rfl

/-- The operation as it was created, whatever it has done since. -/
def created : Operation → Operation
  | .loadDataFromDisk fileName _ => .loadDataFromDisk fileName none
  | .writeDataToDisk data fileName _ => .writeDataToDisk data fileName data.isSome
  | .writeProfile operations completion => .writeProfile operations completion
  | .readProfile n d a completion => .readProfile n d a completion

theorem created_main (kit : UIKit Image) (fileManager : FileUtilsManager Disk Access)
    (entries : List Entry) (i : ℕ) (x : Entry) (access : Access) (env : Env Image Disk) :
    created (main kit fileManager entries i x access env).op = created x.op := by
  obtain ⟨op, dependencies, phase, isCancelled⟩ := x
  cases op <;> cases isCancelled <;> rfl

/-- What a step may put on the queue: nothing, or the operations of one call. -/
inductive Grows (kit : UIKit Image) (base : ℕ) : List (Operation × List ℕ) → Prop
  | nothing : Grows kit base []
  | save (profile : ProfileViewModel Image) (completion : SaveCompletion) :
      Grows kit base (saveOperations kit base profile completion)
  | read (completion : ReadCompletion) : Grows kit base (readOperations base completion)

theorem main_grows (kit : UIKit Image) (fileManager : FileUtilsManager Disk Access)
    (entries : List Entry) (i : ℕ) (x : Entry) (access : Access) (env : Env Image Disk) :
    Grows kit entries.length (main kit fileManager entries i x access env).added := by
  obtain ⟨op, dependencies, phase, isCancelled⟩ := x
  cases op with
  | loadDataFromDisk fileName data => cases isCancelled <;> exact .nothing
  | writeDataToDisk data fileName success => cases isCancelled <;> exact .nothing
  | writeProfile operations completion => exact .nothing
  | readProfile n d a completion =>
    cases isCancelled with
    | true => exact .nothing
    | false =>
      simp only [main, Bool.false_eq_true, if_false]
      generalize profileOf kit _ = profile
      cases completion with
      | caller call => exact .nothing
      | userDataStore call =>
        cases profile with
        | some profile => exact .nothing
        | none => exact .save _ _

theorem grows_created {kit : UIKit Image} {base : ℕ} {added : List (Operation × List ℕ)}
    (h : Grows kit base added) : added.map (fun a => (created a.1, a.2)) = added := by
  cases h <;> rfl

/-- The operations on the queue stay as they were created, with the new ones after them. -/
theorem step_layout {kit : UIKit Image} {fileManager : FileUtilsManager Disk Access}
    {s t : State Image Disk} {e : Event Image Access} (h : step kit fileManager s e = some t) :
    ∃ added, Grows kit s.entries.length added ∧ t.layout created = s.layout created ++ added := by
  have hcall {added : List (Operation × List ℕ)} (hadded : Grows kit s.entries.length added) :
      (call s added).layout created = s.layout created ++ added := by
    rw [call, OperationQueue.layout_addOperations, grows_created hadded]
    rfl
  cases e with
  | save profile =>
    obtain rfl := Option.some.inj h
    exact ⟨_, .save _ _, hcall (.save _ _)⟩
  | read =>
    obtain rfl := Option.some.inj h
    exact ⟨_, .read _, hcall (.read _)⟩
  | readProfile =>
    obtain rfl := Option.some.inj h
    exact ⟨_, .read _, hcall (.read _)⟩
  | operation event =>
    rw [step_operation] at h
    cases event with
    | cancel i =>
      obtain ⟨x, hx, rfl⟩ := OperationQueue.cancel_eq_some.mp h
      refine ⟨[], .nothing, ?_⟩
      rw [OperationQueue.layout_replace hx (by rw [x.cancel_op]) x.cancel_dependencies,
        List.append_nil]
    | start i =>
      obtain ⟨x, hx, -, -, rfl⟩ := OperationQueue.start_eq_some.mp h
      refine ⟨[], .nothing, ?_⟩
      rw [OperationQueue.layout_replace hx (by rw [x.start_op]) x.start_dependencies,
        List.append_nil]
    | main i access =>
      obtain ⟨x, hx, -, rfl⟩ := OperationQueue.main_eq_some.mp h
      have hgrows := main_grows kit fileManager s.entries i x access s.env
      refine ⟨_, hgrows, ?_⟩
      rw [OperationQueue.layout_finish hx (created_main kit fileManager s.entries i x access s.env),
        grows_created hgrows]

/-- The operations whose fields an operation reads. -/
def operands : Operation → List ℕ
  | .loadDataFromDisk _ _ => []
  | .writeDataToDisk _ _ _ => []
  | .writeProfile operations _ => operations
  | .readProfile n d a _ => [n, d, a]

/-- Every operation depends on the operations whose fields it reads, and what runs
its main, or has run it, finds them finished. -/
structure Ordered (s : State Image Disk) : Prop where
  started : s.Started
  depends : ∀ l ∈ s.layout created, l.2 = operands l.1

theorem empty_ordered (kit : UIKit Image) (disk : Disk) : Ordered (State.empty kit disk) := by
  constructor
  · intro i x hx
    simp [State.empty] at hx
  · intro l hl
    simp [State.empty, OperationQueue.State.layout] at hl

theorem step_ordered {kit : UIKit Image} {fileManager : FileUtilsManager Disk Access}
    {s t : State Image Disk} {e : Event Image Access} (hs : Ordered s)
    (h : step kit fileManager s e = some t) : Ordered t := by
  constructor
  · cases e with
    | operation event => exact OperationQueue.step_started h hs.started
    | save profile =>
      obtain rfl := Option.some.inj h
      exact OperationQueue.addOperations_started hs.started _
    | read =>
      obtain rfl := Option.some.inj h
      exact OperationQueue.addOperations_started hs.started _
    | readProfile =>
      obtain rfl := Option.some.inj h
      exact OperationQueue.addOperations_started hs.started _
  · obtain ⟨added, hadded, hlayout⟩ := step_layout h
    rw [hlayout]
    intro l hl
    rcases List.mem_append.mp hl with hold | hnew
    · exact hs.depends l hold
    · cases hadded with
      | nothing => simp at hnew
      | save profile completion =>
        simp only [saveOperations, List.mem_cons, List.not_mem_nil, or_false] at hnew
        rcases hnew with rfl | rfl | rfl | rfl <;> rfl
      | read completion =>
        simp only [readOperations, List.mem_cons, List.not_mem_nil, or_false] at hnew
        rcases hnew with rfl | rfl | rfl | rfl <;> rfl

/-- When an operation runs its main, those whose fields it reads have finished. -/
theorem operands_finished {s : State Image Disk} (hs : Ordered s) {i : ℕ} {x : Entry}
    (hx : s.entries[i]? = some x) (hexecuting : x.phase = .executing) {j : ℕ}
    (hj : j ∈ operands x.op) : s.isFinishedAt j := by
  have hmem : (created x.op, x.dependencies) ∈ s.layout created :=
    List.mem_map.mpr ⟨x, List.mem_of_getElem? hx, rfl⟩
  have hdepends : x.dependencies = operands (created x.op) := hs.depends _ hmem
  have hcreated : operands (created x.op) = operands x.op := by
    cases x.op <;> rfl
  apply hs.started i x hx (Or.inl hexecuting) j
  rw [hdepends, hcreated]
  exact hj

end TinkoffChat.OperationProfileManager

import TinkoffChat.OperationProfileManager

/-!
The answers to the calls. A call is owed one answer, and what it is owed is
carried by the last operation of its group: an answer already given, or an
operation that has yet to give it. A cancelled one that is started, and a
cancelled read that runs its main, finish without giving it.
-/
namespace TinkoffChat.CallAnswers

open PartialRuns ProfileFiles OperationProfileManager

variable {Image Disk Access : Type*}

/-- The operation invokes the completion of the call. -/
def answersCall (c : ℕ) : Operation → Bool
  | .loadDataFromDisk _ _ => false
  | .writeDataToDisk _ _ _ => false
  | .writeProfile _ (.caller call) => call = c
  | .writeProfile _ (.saveDefault call) => call = c
  | .readProfile _ _ _ (.caller call) => call = c
  | .readProfile _ _ _ (.userDataStore call) => call = c

def readsProfile : Operation → Bool
  | .readProfile _ _ _ _ => true
  | _ => false

/-- How often the completion of the call has been invoked. -/
def answered (c : ℕ) (env : Env Image Disk) : ℕ := env.answers.countP fun a => a.1 = c

/-- The answers given to the call and those still to come. -/
def owed (c : ℕ) (s : State Image Disk) : ℕ := answered c s.env + s.live (answersCall c)

/-- The step finishes an operation that answers the call without answering it. -/
def swallows (c : ℕ) (s : State Image Disk) : Event Image Access → Bool
  | .operation (.start i) => s.entries[i]?.any fun x => x.isCancelled && answersCall c x.op
  | .operation (.main i _) => s.entries[i]?.any fun x =>
      x.isCancelled && readsProfile x.op && answersCall c x.op
  | _ => false

def Swallows (s : State Image Disk) (e : Event Image Access) : Prop := ∃ c, swallows c s e

/-- Every call has had exactly one answer. -/
def AnsweredOnce (s : State Image Disk) : Prop := ∀ c < s.env.calls, answered c s.env = 1

def opened (c : ℕ) (s : State Image Disk) : Event Image Access → ℕ
  | .operation _ => 0
  | _ => if s.env.calls = c then 1 else 0

theorem answered_answer (c : ℕ) (env : Env Image Disk) (call : ℕ) (a : Answer Image) :
    answered c (env.answer call a) = answered c env + if call = c then 1 else 0 := by
  simp [answered, Env.answer, List.countP_append, List.countP_cons]

theorem saveOperations_countP (kit : UIKit Image) (c base : ℕ) (profile : ProfileViewModel Image)
    (completion : SaveCompletion) :
    (saveOperations kit base profile completion).countP (fun a => answersCall c a.1) =
      if answersCall c (.writeProfile [] completion) then 1 else 0 := by
  cases completion <;> simp [saveOperations, writeOperation, answersCall, List.countP_cons]

theorem readOperations_countP (c base : ℕ) (completion : ReadCompletion) :
    (readOperations base completion).countP (fun a => answersCall c a.1) =
      if answersCall c (.readProfile 0 0 0 completion) then 1 else 0 := by
  cases completion <;> simp [readOperations, loadOperation, answersCall, List.countP_cons]

theorem saveInvoke_answered (kit : UIKit Image) (c : ℕ) (success : Bool) (env : Env Image Disk)
    (completion : SaveCompletion) :
    answered c (completion.invoke kit success env) =
      answered c env + if answersCall c (.writeProfile [] completion) then 1 else 0 := by
  cases completion with
  | caller call => simp [SaveCompletion.invoke, answered_answer, answersCall]
  | saveDefault call =>
    rw [SaveCompletion.invoke, answered_answer]
    simp [answersCall, answered]

/-- The completion of a read answers the call, or leaves the answer to the save it makes. -/
theorem readInvoke_answered (kit : UIKit Image) (c base : ℕ)
    (profile : Option (ProfileViewModel Image)) (env : Env Image Disk)
    (completion : ReadCompletion) :
    answered c (completion.invoke kit base profile env).1 +
        (completion.invoke kit base profile env).2.countP (fun a => answersCall c a.1) =
      answered c env + if answersCall c (.readProfile 0 0 0 completion) then 1 else 0 := by
  cases completion with
  | caller call => simp [ReadCompletion.invoke, answered_answer, answersCall]
  | userDataStore call =>
    cases profile with
    | some profile =>
      simp only [ReadCompletion.invoke, answered_answer, List.countP_nil]
      simp [answersCall, answered]
    | none =>
      simp only [ReadCompletion.invoke, saveOperations_countP]
      simp [answersCall]

theorem main_answered (kit : UIKit Image) (fileManager : FileUtilsManager Disk Access) (c : ℕ)
    (entries : List Entry) (i : ℕ) (x : Entry) (access : Access) (env : Env Image Disk) :
    let out := main kit fileManager entries i x access env
    answered c out.env + out.added.countP (fun a => answersCall c a.1) +
        (if x.isCancelled && readsProfile x.op && answersCall c x.op then 1 else 0) =
      answered c env + if answersCall c x.op then 1 else 0 := by
  obtain ⟨op, dependencies, phase, isCancelled⟩ := x
  cases op with
  | loadDataFromDisk fileName data => cases isCancelled <;> simp [main, answersCall]
  | writeDataToDisk data fileName success =>
    cases isCancelled <;> simp [main, answersCall, answered]
  | writeProfile operations completion =>
    simp only [main, saveInvoke_answered, List.countP_nil, readsProfile]
    cases completion <;> simp [answersCall, answered]
  | readProfile n d a completion =>
    cases isCancelled with
    | true => cases completion <;> simp [main, answersCall, readsProfile]
    | false =>
      simp only [main, readInvoke_answered, Bool.false_and, Bool.false_eq_true, if_false]
      cases completion <;> simp [answersCall]

theorem main_calls (kit : UIKit Image) (fileManager : FileUtilsManager Disk Access)
    (entries : List Entry) (i : ℕ) (x : Entry) (access : Access) (env : Env Image Disk) :
    (main kit fileManager entries i x access env).env.calls = env.calls := by
  obtain ⟨op, dependencies, phase, isCancelled⟩ := x
  cases op <;> cases isCancelled <;> simp [main]

theorem step_calls {kit : UIKit Image} {fileManager : FileUtilsManager Disk Access}
    {s t : State Image Disk} {event : OperationQueue.Event Access}
    (h : OperationQueue.step (main kit fileManager) s event = some t) :
    t.env.calls = s.env.calls := by
  cases event with
  | cancel i =>
    obtain ⟨x, -, rfl⟩ := OperationQueue.cancel_eq_some.mp h
    rfl
  | start i =>
    obtain ⟨x, -, -, -, rfl⟩ := OperationQueue.start_eq_some.mp h
    rfl
  | main i access =>
    obtain ⟨x, -, -, rfl⟩ := OperationQueue.main_eq_some.mp h
    exact main_calls kit fileManager s.entries i x access s.env

/-- What a step of the queue takes from a call without answering it, it swallows. -/
theorem operation_owed {kit : UIKit Image} {fileManager : FileUtilsManager Disk Access}
    {s t : State Image Disk} {event : OperationQueue.Event Access}
    (h : OperationQueue.step (main kit fileManager) s event = some t) (c : ℕ) :
    owed c t + (if swallows c s (.operation event) then 1 else 0) = owed c s := by
  cases event with
  | cancel i =>
    obtain ⟨x, hx, rfl⟩ := OperationQueue.cancel_eq_some.mp h
    have hlive := OperationQueue.live_replace (answersCall c) hx x.cancel
    have hsame : x.cancel.isFinished = x.isFinished := by
      rw [OperationQueue.Entry.isFinished, x.cancel_phase, OperationQueue.Entry.isFinished]
    rw [hsame, x.cancel_op] at hlive
    simp only [owed, swallows, OperationQueue.State.replace] at hlive ⊢
    simp only [Bool.false_eq_true, if_false]
    omega
  | start i =>
    obtain ⟨x, hx, hpending, -, rfl⟩ := OperationQueue.start_eq_some.mp h
    have hlive := OperationQueue.live_replace (answersCall c) hx x.start
    rw [x.start_isFinished, OperationQueue.Entry.not_finished_of_pending hpending] at hlive
    simp only [owed, swallows, OperationQueue.State.replace, hx, Option.any_some,
      OperationQueue.Entry.start_op] at hlive ⊢
    cases hc : x.isCancelled <;> cases ha : answersCall c x.op <;> simp [hc, ha] at hlive ⊢ <;>
      omega
  | main i access =>
    obtain ⟨x, hx, hexecuting, rfl⟩ := OperationQueue.main_eq_some.mp h
    have hmain := main_answered kit fileManager c s.entries i x access s.env
    have hlive := OperationQueue.live_finish (answersCall c) hx
      (OperationQueue.Entry.not_finished_of_executing hexecuting)
      (main kit fileManager s.entries i x access s.env)
    have henv : (s.finish i x (main kit fileManager s.entries i x access s.env)).env =
        (main kit fileManager s.entries i x access s.env).env := rfl
    simp only [owed, swallows, hx, Option.any_some, henv] at hmain hlive ⊢
    omega

theorem call_owed {c : ℕ} {s : State Image Disk} {operations : List (Operation × List ℕ)}
    (hcount : operations.countP (fun a => answersCall c a.1) = if s.env.calls = c then 1 else 0) :
    owed c (call s operations) = owed c s + if s.env.calls = c then 1 else 0 := by
  have hlive : (call s operations).live (answersCall c) =
      s.live (answersCall c) + operations.countP fun a => answersCall c a.1 :=
    OperationQueue.live_addOperations (answersCall c) operations
  have hanswered : answered c (call s operations).env = answered c s.env := rfl
  rw [owed, owed, hlive, hanswered, hcount, Nat.add_assoc]

theorem step_owed {kit : UIKit Image} {fileManager : FileUtilsManager Disk Access}
    {s t : State Image Disk} {e : Event Image Access}
    (h : step kit fileManager s e = some t) (c : ℕ) :
    owed c t + (if swallows c s e then 1 else 0) = owed c s + opened c s e := by
  cases e with
  | save profile =>
    obtain rfl := Option.some.inj h
    apply call_owed
    rw [saveOperations_countP]
    simp [answersCall]
  | read =>
    obtain rfl := Option.some.inj h
    apply call_owed
    rw [readOperations_countP]
    simp [answersCall]
  | readProfile =>
    obtain rfl := Option.some.inj h
    apply call_owed
    rw [readOperations_countP]
    simp [answersCall]
  | operation event => exact operation_owed h c

/-- No call is owed more than one answer, and only the calls made are owed any. -/
structure Balanced (s : State Image Disk) : Prop where
  owed_le : ∀ c, owed c s ≤ 1
  owed_future : ∀ c, s.env.calls ≤ c → owed c s = 0

theorem empty_balanced (kit : UIKit Image) (disk : Disk) : Balanced (State.empty kit disk) :=
  ⟨fun _ => Nat.zero_le _, fun _ _ => rfl⟩

/-- Steps other than those of the queue are calls. -/
theorem step_cases {kit : UIKit Image} {fileManager : FileUtilsManager Disk Access}
    {s t : State Image Disk} {e : Event Image Access} (h : step kit fileManager s e = some t) :
    (t.env.calls = s.env.calls ∧ ∀ c, opened c s e = 0) ∨
      (t.env.calls = s.env.calls + 1 ∧ (∀ c, opened c s e = if s.env.calls = c then 1 else 0) ∧
        ∀ c, swallows c s e = false) := by
  cases e with
  | operation event => exact Or.inl ⟨step_calls h, fun _ => rfl⟩
  | save profile =>
    obtain rfl := Option.some.inj h
    exact Or.inr ⟨rfl, fun _ => rfl, fun _ => rfl⟩
  | read =>
    obtain rfl := Option.some.inj h
    exact Or.inr ⟨rfl, fun _ => rfl, fun _ => rfl⟩
  | readProfile =>
    obtain rfl := Option.some.inj h
    exact Or.inr ⟨rfl, fun _ => rfl, fun _ => rfl⟩

theorem step_balanced {kit : UIKit Image} {fileManager : FileUtilsManager Disk Access}
    {s t : State Image Disk} {e : Event Image Access} (hs : Balanced s)
    (h : step kit fileManager s e = some t) : Balanced t := by
  rcases step_cases h with ⟨hcalls, hopened⟩ | ⟨hcalls, hopened, hswallows⟩
  · constructor
    · intro c
      have howed := step_owed h c
      have hle := hs.owed_le c
      rw [hopened c] at howed
      omega
    · intro c hc
      have howed := step_owed h c
      have hzero := hs.owed_future c (by omega)
      rw [hopened c] at howed
      omega
  · constructor
    · intro c
      have howed := step_owed h c
      have hle := hs.owed_le c
      have hzero := hs.owed_future c
      rw [hopened c, hswallows c] at howed
      simp only [Bool.false_eq_true, if_false] at howed
      split at howed <;> omega
    · intro c hc
      have howed := step_owed h c
      have hzero := hs.owed_future c (by omega)
      have hother : s.env.calls ≠ c := by omega
      rw [hopened c, if_neg hother] at howed
      omega

/-- A step keeps every call owed its answer exactly when it swallows none. -/
theorem step_owedOnce_iff {kit : UIKit Image} {fileManager : FileUtilsManager Disk Access}
    {s t : State Image Disk} {e : Event Image Access} (hs : Balanced s)
    (h : step kit fileManager s e = some t) :
    (∀ c < t.env.calls, owed c t = 1) ↔ ¬ Swallows s e ∧ ∀ c < s.env.calls, owed c s = 1 := by
  rcases step_cases h with ⟨hcalls, hopened⟩ | ⟨hcalls, hopened, hswallows⟩
  · constructor
    · intro howedOnce
      constructor
      · rintro ⟨c, hc⟩
        have howed := step_owed h c
        have hle := hs.owed_le c
        have hzero := hs.owed_future c
        have hone := howedOnce c
        rw [hopened c, if_pos hc] at howed
        omega
      · intro c hc
        have howed := step_owed h c
        have hle := hs.owed_le c
        have hone := howedOnce c (by omega)
        rw [hopened c] at howed
        omega
    · rintro ⟨hnone, howedOnce⟩ c hc
      have howed := step_owed h c
      have hone := howedOnce c (by omega)
      rw [hopened c, if_neg (fun hswallows => hnone ⟨c, hswallows⟩)] at howed
      omega
  · have hnone : ¬ Swallows s e := by
      rintro ⟨c, hc⟩
      rw [hswallows c] at hc
      cases hc
    rw [and_iff_right hnone]
    have hsame : ∀ c, owed c t = owed c s + if s.env.calls = c then 1 else 0 := by
      intro c
      have howed := step_owed h c
      rw [hopened c, hswallows c] at howed
      exact howed
    constructor
    · intro howedOnce c hc
      have hone := howedOnce c (by omega)
      rw [hsame c, if_neg (by omega)] at hone
      exact hone
    · intro howedOnce c hc
      rw [hsame c]
      rcases Nat.lt_or_ge c s.env.calls with hlt | hge
      · rw [howedOnce c hlt, if_neg (by omega)]
      · rw [hs.owed_future c hge, if_pos (by omega)]

theorem run_owedOnce_iff {kit : UIKit Image} {fileManager : FileUtilsManager Disk Access}
    {s t : State Image Disk} {es : List (Event Image Access)} (hs : Balanced s)
    (h : run (step kit fileManager) s es = some t) :
    (∀ c < t.env.calls, owed c t = 1) ↔
      Along (step kit fileManager) (fun s e => ¬ Swallows s e) s es ∧
        ∀ c < s.env.calls, owed c s = 1 := by
  have hiff (s : State Image Disk) (e : Event Image Access) (t : State Image Disk)
      (hs : Balanced s) (h : step kit fileManager s e = some t) :
      (∀ c < t.env.calls, owed c t = 1) ↔ ¬ Swallows s e ∧ ∀ c < s.env.calls, owed c s = 1 :=
    step_owedOnce_iff hs h
  exact run_iff (fun _ _ _ hs h => step_balanced hs h) hiff hs h

/-- Once every operation has finished, each call has had exactly one answer if
and only if no step of the run swallowed one. -/
theorem answeredOnce_iff (kit : UIKit Image) (fileManager : FileUtilsManager Disk Access)
    (disk : Disk) {es : List (Event Image Access)} {s : State Image Disk}
    (h : run (step kit fileManager) (State.empty kit disk) es = some s) (hdrained : s.Drained) :
    AnsweredOnce s ↔
      Along (step kit fileManager) (fun s e => ¬ Swallows s e) (State.empty kit disk) es := by
  have hiff := run_owedOnce_iff (empty_balanced kit disk) h
  have hnone : ∀ c < (State.empty kit disk).env.calls, owed c (State.empty kit disk) = 1 :=
    fun c hc => absurd hc (Nat.not_lt_zero c)
  rw [and_iff_left hnone] at hiff
  rw [← hiff, AnsweredOnce]
  have howed (c : ℕ) : owed c s = answered c s.env := by
    rw [owed, OperationQueue.live_drained _ hdrained, Nat.add_zero]
  simp only [howed]

/-- A read of an empty disk; the cancellation comes after the first load. -/
def emptyRead : List (OperationQueue.Event ProfileFiles.Access) := [
  .start 0, .main 0 .succeeds, .cancel 0,
  .start 1, .main 1 .succeeds,
  .start 2, .main 2 .succeeds,
  .start 3, .main 3 .succeeds]

theorem answeredOnce_emptyRead :
    Along (step plainKit FileUtils) (fun s e => ¬ Swallows s e)
      (State.empty plainKit fun _ => none) (.read :: emptyRead.map .operation) := by
  obtain ⟨s, hrun⟩ : ∃ s, run (step plainKit FileUtils) (State.empty plainKit fun _ => none)
      (.read :: emptyRead.map .operation) = some s := ⟨_, rfl⟩
  obtain ⟨hdrained, honce⟩ : s.Drained ∧ AnsweredOnce s := by
    obtain rfl := Option.some.inj hrun
    unfold OperationQueue.State.Drained AnsweredOnce
    decide
  exact (answeredOnce_iff plainKit FileUtils _ hrun hdrained).mp honce

/-- `cancelAllOperations` while the read of the conversation list is on the queue. -/
def cancelledRead : List (OperationQueue.Event ProfileFiles.Access) := [
  .cancel 0, .cancel 1, .cancel 2, .cancel 3,
  .start 0, .start 1, .start 2, .start 3]

/-- The read of another screen never gets its answer. -/
theorem not_answeredOnce :
    ¬ ∀ (es : List (Event (Option Data) ProfileFiles.Access)) (s : State (Option Data) Files),
      run (step plainKit FileUtils) (State.empty plainKit fun _ => none) es = some s →
        s.Drained → AnsweredOnce s := by
  intro h
  obtain ⟨s, hrun⟩ : ∃ s, run (step plainKit FileUtils) (State.empty plainKit fun _ => none)
      (.readProfile :: cancelledRead.map .operation) = some s := ⟨_, rfl⟩
  obtain ⟨hdrained, hanswered⟩ : s.Drained ∧ ¬ AnsweredOnce s := by
    obtain rfl := Option.some.inj hrun
    unfold OperationQueue.State.Drained AnsweredOnce
    decide
  exact hanswered (h _ s hrun hdrained)

end TinkoffChat.CallAnswers

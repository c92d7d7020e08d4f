import TinkoffChat.OverlappingSaves
import TinkoffChat.QueueDraining

/-!
The operations of the profile manager never wait for each other in a circle: an
operation depends only on those added just before it. A save brings four
operations, a read four that may be followed by the save of the default profile,
so the queue always drains, and without cancellation every call has its answer then.
-/
namespace TinkoffChat.ProfileProgress

open PartialRuns ProfileFiles OperationProfileManager CallAnswers OverlappingSaves

variable {Image Disk Access : Type*}

/-- Two steps for each operation that the operation may put on the queue. -/
def cost : Operation → ℕ
  | .readProfile _ _ _ (.userDataStore _) => 8
  | _ => 0

variable {kit : UIKit Image} {fileManager : FileUtilsManager Disk Access}
  {s t : State Image Disk} {e : Event Image Access}

theorem grows_backward {base : ℕ} {added : List (Operation × List ℕ)}
    (h : Grows kit base added) : OperationQueue.AddsBackward base added := by
  intro k a ha d hd
  cases h with
  | nothing => simp at ha
  | save profile completion =>
    rcases k with _ | _ | _ | _ | k
    · obtain rfl := Option.some.inj ha
      simp at hd
    · obtain rfl := Option.some.inj ha
      simp at hd
    · obtain rfl := Option.some.inj ha
      simp at hd
    · obtain rfl := Option.some.inj ha
      simp only [List.mem_cons, List.not_mem_nil, or_false] at hd
      omega
    · simp [saveOperations] at ha
  | read completion =>
    rcases k with _ | _ | _ | _ | k
    · obtain rfl := Option.some.inj ha
      simp at hd
    · obtain rfl := Option.some.inj ha
      simp at hd
    · obtain rfl := Option.some.inj ha
      simp at hd
    · obtain rfl := Option.some.inj ha
      simp only [List.mem_cons, List.not_mem_nil, or_false] at hd
      omega
    · simp [readOperations] at ha

theorem main_backward (entries : List Entry) (i : ℕ) (x : Entry) (access : Access)
    (env : Env Image Disk) : OperationQueue.AddsBackward entries.length
      (main kit fileManager entries i x access env).added :=
  grows_backward (main_grows kit fileManager entries i x access env)

theorem step_backward (hs : s.Backward) (h : step kit fileManager s e = some t) :
    t.Backward := by
  have hcall {added : List (Operation × List ℕ)} (hadded : Grows kit s.entries.length added) :
      (call s added).Backward :=
    OperationQueue.addOperations_backward (s := ⟨s.entries, _⟩) hs (grows_backward hadded)
  cases e with
  | save profile =>
    obtain rfl := Option.some.inj h
    exact hcall (.save _ _)
  | read =>
    obtain rfl := Option.some.inj h
    exact hcall (.read _)
  | readProfile =>
    obtain rfl := Option.some.inj h
    exact hcall (.read _)
  | operation event => exact OperationQueue.step_backward main_backward hs h

theorem reachable_backward {disk : Disk}
    (h : Reachable (step kit fileManager) (State.empty kit disk) s) : s.Backward := by
  have hempty : (State.empty kit disk).Backward := by
    intro i x hx
    simp [State.empty] at hx
  exact reachable_invariant hempty (fun _ _ _ hs h => step_backward hs h) h

/-- Only a read of the user data store adds operations, and it has paid for them. -/
theorem main_addedWork (entries : List Entry) (i : ℕ) (x : Entry) (access : Access)
    (env : Env Image Disk) :
    OperationQueue.addedWork cost (main kit fileManager entries i x access env).added ≤
      cost x.op := by
  obtain ⟨op, dependencies, phase, isCancelled⟩ := x
  cases op with
  | loadDataFromDisk fileName data => cases isCancelled <;> exact Nat.zero_le _
  | writeDataToDisk data fileName success => cases isCancelled <;> exact Nat.zero_le _
  | writeProfile operations completion => exact Nat.zero_le _
  | readProfile n d a completion =>
    cases isCancelled with
    | true => exact Nat.zero_le _
    | false =>
      simp only [main, Bool.false_eq_true, if_false]
      generalize profileOf kit _ = profile
      cases completion with
      | caller call => exact Nat.zero_le _
      | userDataStore call =>
        cases profile with
        | some profile => exact Nat.zero_le _
        | none => exact Nat.le_refl 8

/-- In every reachable state the queue is drained or can go on, and no run of it, with
cancellations anywhere, goes on for longer than there is to do. -/
theorem queue_drains (kit : UIKit Image) (fileManager : FileUtilsManager Disk Access)
    (disk : Disk) {s : State Image Disk}
    (h : Reachable (step kit fileManager) (State.empty kit disk) s) :
    (s.Drained ∨ ∃ i, (∃ t, step kit fileManager s (.operation (.start i)) = some t) ∨
      ∀ access, ∃ t, step kit fileManager s (.operation (.main i access)) = some t) ∧
    ∀ es t, run (OperationQueue.step (main kit fileManager)) s es = some t →
      es.countP (fun e => ¬ e.IsCancel) ≤ s.work cost := by
  constructor
  · by_cases hdrained : s.Drained
    · exact Or.inl hdrained
    · exact Or.inr (OperationQueue.exists_step_of_not_drained (reachable_backward h) hdrained)
  · intro es t hrun
    have hwork := OperationQueue.run_work main_addedWork hrun
    omega

/-- A read of the user data store, with the save of the default profile it may lead to,
takes sixteen steps at most. -/
theorem queue_drains_readProfile :
    ∃ s, run (step plainKit FileUtils) (State.empty plainKit fun _ => none) [.readProfile] =
        some s ∧
      ∀ es t, run (OperationQueue.step (main plainKit FileUtils)) s es = some t →
        es.countP (fun e => ¬ e.IsCancel) ≤ 16 := by
  obtain ⟨s, hrun⟩ : ∃ s, run (step plainKit FileUtils) (State.empty plainKit fun _ => none)
      [.readProfile] = some s := ⟨_, rfl⟩
  have hwork : s.work cost = 16 := by
    obtain rfl := Option.some.inj hrun
    rfl
  obtain ⟨-, hbound⟩ := queue_drains plainKit FileUtils _ ⟨_, hrun⟩
  refine ⟨s, hrun, fun es t ht => ?_⟩
  rw [← hwork]
  exact hbound es t ht

theorem run_operation {es : List (OperationQueue.Event Access)}
    (h : run (OperationQueue.step (main kit fileManager)) s es = some t) :
    run (step kit fileManager) s (es.map .operation) = some t := by
  induction es generalizing s with
  | nil => exact h
  | cons e es ih =>
    obtain ⟨u, hu, hrest⟩ := run_cons_eq_some.mp h
    have hfirst : step kit fileManager s (.operation e) = some u := hu
    rw [List.map_cons, run_cons_of_step hfirst, ih hrest]

/-- After any calls and operations without cancellation no call was answered twice, the
queue can be run until it is stuck, and wherever it gets stuck every call was answered once. -/
theorem calls_answered [Nonempty Access] (kit : UIKit Image)
    (fileManager : FileUtilsManager Disk Access) (disk : Disk) {es : List (Event Image Access)}
    {s : State Image Disk} (hes : ∀ e ∈ es, ¬ Cancels e)
    (h : run (step kit fileManager) (State.empty kit disk) es = some s) :
    (∀ c, answered c s.env ≤ 1) ∧
    (∃ fs t, (∀ e ∈ fs, ¬ e.IsCancel) ∧
      run (OperationQueue.step (main kit fileManager)) s fs = some t ∧
        OperationQueue.Stuck (main kit fileManager) t) ∧
    ∀ fs t, (∀ e ∈ fs, ¬ e.IsCancel) →
      run (OperationQueue.step (main kit fileManager)) s fs = some t →
        OperationQueue.Stuck (main kit fileManager) t → AnsweredOnce t := by
  refine ⟨?_, OperationQueue.exists_run_stuck main_addedWork s, ?_⟩
  · have hbalanced : Balanced s := run_invariant (fun _ _ _ hs h => step_balanced hs h)
      (empty_balanced kit disk) h
    intro c
    have hle := hbalanced.owed_le c
    rw [owed] at hle
    omega
  · intro fs t hfs hrun hstuck
    have hall : run (step kit fileManager) (State.empty kit disk) (es ++ fs.map .operation) =
        some t := by
      rw [run_append_of_run h]
      exact run_operation hrun
    have hcalm : ∀ e ∈ es ++ fs.map .operation, ¬ Cancels e := by
      intro e he
      rcases List.mem_append.mp he with he | he
      · exact hes e he
      · obtain ⟨f, hf, rfl⟩ := List.mem_map.mp he
        exact hfs f hf
    have hdrained := OperationQueue.drained_of_stuck (reachable_backward ⟨_, hall⟩) hstuck
    exact uncancelled_answeredOnce kit fileManager disk hcalm hall hdrained

/-- A call of each kind, one after the other put on the queue. -/
theorem calls_answered_threeCalls :
    ∃ s fs t, run (step plainKit FileUtils) (State.empty plainKit fun _ => none)
        [.readProfile, .read, .save nick] = some s ∧
      run (OperationQueue.step (main plainKit FileUtils)) s fs = some t ∧ AnsweredOnce t := by
  have : Nonempty ProfileFiles.Access := ⟨.succeeds⟩
  obtain ⟨s, hrun⟩ : ∃ s, run (step plainKit FileUtils) (State.empty plainKit fun _ => none)
      [.readProfile, .read, .save nick] = some s := ⟨_, rfl⟩
  have hcalls : ∀ e ∈ [Event.readProfile, .read, .save nick],
      ¬ Cancels (e : Event (Option Data) ProfileFiles.Access) := by
    intro e he
    simp only [List.mem_cons, List.not_mem_nil, or_false] at he
    rcases he with rfl | rfl | rfl <;> exact id
  obtain ⟨-, ⟨fs, t, hfs, ht, hstuck⟩, hall⟩ :=
    calls_answered plainKit FileUtils _ hcalls hrun
  exact ⟨s, fs, t, hrun, ht, hall fs t hfs ht hstuck⟩

end TinkoffChat.ProfileProgress

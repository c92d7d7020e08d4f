import TinkoffChat.OperationProfileManager

/-!
What a save reports and what was written. The success of a write starts out as
whether it has data and is left so when the write is skipped, so a report reads
the results of `fileManager.save` only where the writes have called it.
-/
namespace TinkoffChat.SaveReports

open PartialRuns ProfileFiles OperationProfileManager

variable {Image Disk Access : Type*}

/-- A report of success stands for writes that all got true from `fileManager.save`. -/
def Honest (s : State Image Disk) : Prop :=
  ∀ r ∈ s.env.reports, r.2 = true → ∀ j ∈ r.1, s.env.saved j = some true

/-- The data of the write operation at the place. -/
def writeDataAt (entries : List Entry) (j : ℕ) : Option Data :=
  match entries[j]?.map OperationQueue.Entry.op with
  | some (.writeDataToDisk data _ _) => data
  | _ => none

/-- The write has failed, or it was skipped and had no data to begin with. -/
def FailedOrEmpty (s : State Image Disk) (j : ℕ) : Prop :=
  s.env.saved j = some false ∨ s.env.saved j = none ∧ writeDataAt s.entries j = none

/-- When a save that was not cancelled reports while one of its writes has been
skipped, some write of it has failed, or was skipped without data. -/
def SkippedSeen (s : State Image Disk) : Event Image Access → Prop
  | .operation (.main i _) => ∀ x operations completion, s.entries[i]? = some x →
      x.op = .writeProfile operations completion → x.isCancelled = false →
        (∃ j ∈ operations, s.env.saved j = none) → ∃ j ∈ operations, FailedOrEmpty s j
  | _ => True

/-- What an operation reports are writes. -/
def Wired (l : List (Operation × List ℕ)) : Prop :=
  ∀ (i : ℕ) operations completion dependencies,
    l[i]? = some (Operation.writeProfile operations completion, dependencies) →
      ∀ j ∈ operations, ∃ (data : Option Data) (fileName : String),
        l[j]? = some (Operation.writeDataToDisk data fileName data.isSome, [])

theorem wired_append {kit : UIKit Image} {l added : List (Operation × List ℕ)} (hl : Wired l)
    (hadded : Grows kit l.length added) : Wired (l ++ added) := by
  intro i operations completion dependencies h
  rcases Nat.lt_or_ge i l.length with hlt | hge
  · rw [List.getElem?_append_left hlt] at h
    intro j hj
    obtain ⟨data, fileName, hwrite⟩ := hl i operations completion dependencies h j hj
    obtain ⟨hj, -⟩ := List.getElem?_eq_some_iff.mp hwrite
    exact ⟨data, fileName, (List.getElem?_append_left hj).trans hwrite⟩
  · rw [List.getElem?_append_right hge] at h
    generalize i - l.length = k at h
    cases hadded with
    | nothing => simp at h
    | save profile saveCompletion =>
      have hwrite (k : ℕ) : (l ++ saveOperations kit l.length profile saveCompletion)[l.length + k]?
          = (saveOperations kit l.length profile saveCompletion)[k]? := by
        rw [List.getElem?_append_right (Nat.le_add_right _ _), Nat.add_sub_cancel_left]
      rcases saveOperations_cases h with ⟨-, tag, heq⟩ | ⟨-, heq⟩
      · cases heq
      · obtain ⟨rfl, -⟩ := Operation.writeProfile.inj heq
        intro j hj
        simp only [List.mem_cons, List.not_mem_nil, or_false] at hj
        rcases hj with rfl | rfl | rfl
        · exact ⟨_, _, hwrite 0⟩
        · exact ⟨_, _, hwrite 1⟩
        · exact ⟨_, _, hwrite 2⟩
    | read readCompletion =>
      rcases mem_readOperations (List.mem_of_getElem? h) with ⟨tag, heq⟩ | heq
      · cases heq
      · cases heq

theorem layout_length (s : State Image Disk) : (s.layout created).length = s.entries.length :=
  List.length_map _

theorem step_wired {kit : UIKit Image} {fileManager : FileUtilsManager Disk Access}
    {s t : State Image Disk} {e : Event Image Access} (hs : Wired (s.layout created))
    (h : step kit fileManager s e = some t) : Wired (t.layout created) := by
  obtain ⟨added, hadded, hlayout⟩ := step_layout h
  rw [← layout_length] at hadded
  rw [hlayout]
  exact wired_append hs hadded

/-- The success of a write is what `fileManager.save` returned, once it was called. -/
structure Recorded (s : State Image Disk) : Prop where
  success_eq : ∀ (j : ℕ) (x : Entry) data fileName success, s.entries[j]? = some x →
    x.op = .writeDataToDisk data fileName success → success = (s.env.saved j).getD data.isSome
  unsaved : ∀ j, s.entries.length ≤ j → s.env.saved j = none

theorem addOperations_recorded {kit : UIKit Image} {s : State Image Disk}
    {added : List (Operation × List ℕ)} {base : ℕ} (hs : Recorded s)
    (hadded : Grows kit base added) : Recorded (s.addOperations added) := by
  constructor
  · intro j x data fileName success hx hop
    rcases OperationQueue.entry_addOperations_cases hx with hold | ⟨k, a, rfl, ha, rfl⟩
    · exact hs.success_eq j x data fileName success hold hop
    · have hcreated : created a.1 = a.1 := by
        have hmap := congrArg (fun l => l[k]?) (grows_created hadded)
        simp only [List.getElem?_map, ha, Option.map_some, Option.some.injEq] at hmap
        exact congrArg Prod.fst hmap
      rw [OperationQueue.Entry.new_op] at hop
      rw [hop, created, Operation.writeDataToDisk.injEq] at hcreated
      have hnone : (s.addOperations added).env.saved (s.entries.length + k) = none :=
        hs.unsaved _ (Nat.le_add_right _ _)
      rw [hnone, Option.getD_none]
      exact hcreated.2.2.symm
  · intro j hj
    apply hs.unsaved j
    simp only [OperationQueue.State.addOperations, List.length_append] at hj
    omega

theorem set_recorded {s : State Image Disk} {i : ℕ} {x y : Entry} {env : Env Image Disk}
    (hs : Recorded s) (hx : s.entries[i]? = some x)
    (hsaved : ∀ j, j ≠ i → env.saved j = s.env.saved j)
    (hself : ∀ data fileName success, y.op = .writeDataToDisk data fileName success →
      success = (env.saved i).getD data.isSome) :
    Recorded ⟨s.entries.set i y, env⟩ := by
  obtain ⟨hlt, -⟩ := List.getElem?_eq_some_iff.mp hx
  constructor
  · intro j z data fileName success hz hop
    rcases OperationQueue.entry_replace_cases (s := s) hz with ⟨rfl, rfl⟩ | ⟨hne, hold⟩
    · exact hself data fileName success hop
    · have hold := hs.success_eq j z data fileName success hold hop
      rw [hold, hsaved j hne]
  · intro j hj
    rw [List.length_set] at hj
    have hne : j ≠ i := by omega
    exact (hsaved j hne).trans (hs.unsaved j hj)

theorem main_saved_of_ne (kit : UIKit Image) (fileManager : FileUtilsManager Disk Access)
    (entries : List Entry) {i j : ℕ} (hij : j ≠ i) (x : Entry) (access : Access)
    (env : Env Image Disk) :
    (main kit fileManager entries i x access env).env.saved j = env.saved j := by
  obtain ⟨op, dependencies, phase, isCancelled⟩ := x
  cases op <;> cases isCancelled <;> simp [main, hij]

theorem main_recorded {kit : UIKit Image} {fileManager : FileUtilsManager Disk Access}
    {s : State Image Disk} {i : ℕ} {x : Entry} (hs : Recorded s) (hx : s.entries[i]? = some x)
    (access : Access) :
    Recorded (s.finish i x (main kit fileManager s.entries i x access s.env)) := by
  apply addOperations_recorded _ (main_grows kit fileManager s.entries i x access s.env)
  apply set_recorded hs hx
  · intro j hj
    exact main_saved_of_ne kit fileManager s.entries hj x access s.env
  · intro d f b hop
    have hold := hs.success_eq i x d f b hx
    obtain ⟨op, dependencies, phase, isCancelled⟩ := x
    cases op with
    | loadDataFromDisk fileName data => cases isCancelled <;> cases hop
    | writeDataToDisk data fileName success =>
      cases isCancelled with
      | true => exact hold hop
      | false =>
        simp only [main, Bool.false_eq_true, if_false, Function.update_self] at hop ⊢
        rw [Operation.writeDataToDisk.injEq] at hop
        exact hop.2.2.symm
    | writeProfile operations completion => cases hop
    | readProfile n d a completion => cases isCancelled <;> cases hop

theorem step_recorded {kit : UIKit Image} {fileManager : FileUtilsManager Disk Access}
    {s t : State Image Disk} {e : Event Image Access} (hs : Recorded s)
    (h : step kit fileManager s e = some t) : Recorded t := by
  have hcalled :
      Recorded (⟨s.entries, { s.env with calls := s.env.calls + 1 }⟩ : State Image Disk) :=
    ⟨hs.success_eq, hs.unsaved⟩
  cases e with
  | save profile =>
    obtain rfl := Option.some.inj h
    exact addOperations_recorded hcalled (.save profile _)
  | read =>
    obtain rfl := Option.some.inj h
    exact addOperations_recorded hcalled (show Grows kit s.entries.length _ from .read _)
  | readProfile =>
    obtain rfl := Option.some.inj h
    exact addOperations_recorded hcalled (show Grows kit s.entries.length _ from .read _)
  | operation event =>
    rw [step_operation] at h
    cases event with
    | cancel i =>
      obtain ⟨x, hx, rfl⟩ := OperationQueue.cancel_eq_some.mp h
      apply set_recorded hs hx (fun _ _ => rfl)
      intro data fileName success hop
      rw [x.cancel_op] at hop
      exact hs.success_eq i x data fileName success hx hop
    | start i =>
      obtain ⟨x, hx, -, -, rfl⟩ := OperationQueue.start_eq_some.mp h
      apply set_recorded hs hx (fun _ _ => rfl)
      intro data fileName success hop
      rw [x.start_op] at hop
      exact hs.success_eq i x data fileName success hx hop
    | main i access =>
      obtain ⟨x, hx, -, rfl⟩ := OperationQueue.main_eq_some.mp h
      exact main_recorded hs hx access

/-- The queue is in order and its histories agree with it. -/
structure Consistent (s : State Image Disk) : Prop where
  ordered : Ordered s
  wired : Wired (s.layout created)
  recorded : Recorded s
  reported : ∀ r ∈ s.env.reports, ∀ j ∈ r.1, s.isFinishedAt j

theorem empty_consistent (kit : UIKit Image) (disk : Disk) :
    Consistent (State.empty kit disk) := by
  refine ⟨empty_ordered kit disk, ?_, ⟨?_, fun _ _ => rfl⟩, ?_⟩
  · intro i operations completion dependencies hx
    simp [State.empty, OperationQueue.State.layout] at hx
  · intro j x data fileName success hx
    simp [State.empty] at hx
  · intro r hr
    simp [State.empty] at hr

/-- The success of a reported write: its result, or whether it had data. -/
theorem successAt_eq {s : State Image Disk} (hs : Consistent s) {i : ℕ} {x : Entry}
    {operations : List ℕ} {completion : SaveCompletion} (hx : s.entries[i]? = some x)
    (hop : x.op = .writeProfile operations completion) :
    ∀ j ∈ operations,
      successAt s.entries j = (s.env.saved j).getD (writeDataAt s.entries j).isSome := by
  intro j hj
  have hlayout : (s.layout created)[i]? =
      some (.writeProfile operations completion, x.dependencies) := by
    rw [OperationQueue.State.layout, List.getElem?_map, hx, Option.map_some, hop]
    rfl
  obtain ⟨data, fileName, hwrite⟩ := hs.wired i operations completion x.dependencies hlayout j hj
  rw [OperationQueue.State.layout, List.getElem?_map, Option.map_eq_some_iff] at hwrite
  obtain ⟨y, hy, hcreated⟩ := hwrite
  rw [Prod.mk.injEq] at hcreated
  cases hyop : y.op with
  | writeDataToDisk d f success =>
    rw [successAt, writeDataAt, hy, Option.map_some, hyop]
    exact hs.recorded.success_eq j y d f success hy hyop
  | loadDataFromDisk f d =>
    rw [hyop] at hcreated
    cases hcreated.1
  | writeProfile ops c =>
    rw [hyop] at hcreated
    cases hcreated.1
  | readProfile n d a c =>
    rw [hyop] at hcreated
    cases hcreated.1

theorem main_reports (kit : UIKit Image) (fileManager : FileUtilsManager Disk Access)
    (entries : List Entry) (i : ℕ) (x : Entry) (access : Access) (env : Env Image Disk) :
    (main kit fileManager entries i x access env).env.reports = env.reports ∨
      ∃ operations completion, x.op = .writeProfile operations completion ∧
        (main kit fileManager entries i x access env).env.saved = env.saved ∧
        (main kit fileManager entries i x access env).env.reports = env.reports ++
          [(operations, !x.isCancelled && operations.all (successAt entries))] := by
  obtain ⟨op, dependencies, phase, isCancelled⟩ := x
  cases op with
  | loadDataFromDisk fileName data => cases isCancelled <;> exact Or.inl rfl
  | writeDataToDisk data fileName success => cases isCancelled <;> exact Or.inl rfl
  | writeProfile operations completion =>
    refine Or.inr ⟨operations, completion, rfl, by simp [main], ?_⟩
    cases isCancelled <;> simp [main, List.any_eq_not_all_not]
  | readProfile n d a completion => cases isCancelled <;> exact Or.inl (by simp [main])

/-- Of a write that has finished, the result stays as it is. -/
theorem step_saved {kit : UIKit Image} {fileManager : FileUtilsManager Disk Access}
    {s t : State Image Disk} {e : Event Image Access} (h : step kit fileManager s e = some t)
    {j : ℕ} (hj : s.isFinishedAt j) : t.env.saved j = s.env.saved j := by
  cases e with
  | save profile =>
    obtain rfl := Option.some.inj h
    rfl
  | read =>
    obtain rfl := Option.some.inj h
    rfl
  | readProfile =>
    obtain rfl := Option.some.inj h
    rfl
  | operation event =>
    rw [step_operation] at h
    cases event with
    | cancel i =>
      obtain ⟨x, -, rfl⟩ := OperationQueue.cancel_eq_some.mp h
      rfl
    | start i =>
      obtain ⟨x, -, -, -, rfl⟩ := OperationQueue.start_eq_some.mp h
      rfl
    | main i access =>
      obtain ⟨x, hx, hexecuting, rfl⟩ := OperationQueue.main_eq_some.mp h
      have hij : j ≠ i := by
        rintro rfl
        obtain ⟨y, hy, hfinished⟩ := OperationQueue.isFinishedAt_iff.mp hj
        obtain rfl : x = y := Option.some.inj (hx.symm.trans hy)
        simp [OperationQueue.Entry.not_finished_of_executing hexecuting] at hfinished
      exact main_saved_of_ne kit fileManager s.entries hij x access s.env

/-- A step makes no report, or it is the main of the operation that makes one. -/
theorem step_reports {kit : UIKit Image} {fileManager : FileUtilsManager Disk Access}
    {s t : State Image Disk} {e : Event Image Access} (h : step kit fileManager s e = some t) :
    (t.env.reports = s.env.reports ∧ SkippedSeen s e) ∨
      ∃ i access x operations completion, e = .operation (.main i access) ∧
        s.entries[i]? = some x ∧ x.phase = .executing ∧
        x.op = .writeProfile operations completion ∧ t.env.saved = s.env.saved ∧
        t.env.reports = s.env.reports ++
          [(operations, !x.isCancelled && operations.all (successAt s.entries))] := by
  cases e with
  | save profile =>
    obtain rfl := Option.some.inj h
    exact Or.inl ⟨rfl, trivial⟩
  | read =>
    obtain rfl := Option.some.inj h
    exact Or.inl ⟨rfl, trivial⟩
  | readProfile =>
    obtain rfl := Option.some.inj h
    exact Or.inl ⟨rfl, trivial⟩
  | operation event =>
    rw [step_operation] at h
    cases event with
    | cancel i =>
      obtain ⟨x, -, rfl⟩ := OperationQueue.cancel_eq_some.mp h
      exact Or.inl ⟨rfl, trivial⟩
    | start i =>
      obtain ⟨x, -, -, -, rfl⟩ := OperationQueue.start_eq_some.mp h
      exact Or.inl ⟨rfl, trivial⟩
    | main i access =>
      obtain ⟨x, hx, hexecuting, rfl⟩ := OperationQueue.main_eq_some.mp h
      rcases main_reports kit fileManager s.entries i x access s.env with
        hsame | ⟨operations, completion, hop, hsaved, hreports⟩
      · by_cases hop : ∃ operations completion, x.op = .writeProfile operations completion
        · obtain ⟨operations, completion, hop⟩ := hop
          simp [main, hop] at hsame
        · refine Or.inl ⟨hsame, ?_⟩
          intro y operations completion hy hyop
          obtain rfl : x = y := Option.some.inj (hx.symm.trans hy)
          exact absurd ⟨operations, completion, hyop⟩ hop
      · exact Or.inr ⟨i, access, x, operations, completion, rfl, hx, hexecuting, hop, hsaved,
          hreports⟩

theorem step_finishedAt {kit : UIKit Image} {fileManager : FileUtilsManager Disk Access}
    {s t : State Image Disk} {e : Event Image Access} (h : step kit fileManager s e = some t)
    {j : ℕ} (hj : s.isFinishedAt j) : t.isFinishedAt j := by
  cases e with
  | operation event => exact OperationQueue.isFinishedAt_step h hj
  | save profile =>
    obtain rfl := Option.some.inj h
    exact OperationQueue.isFinishedAt_addOperations hj
  | read =>
    obtain rfl := Option.some.inj h
    exact OperationQueue.isFinishedAt_addOperations hj
  | readProfile =>
    obtain rfl := Option.some.inj h
    exact OperationQueue.isFinishedAt_addOperations hj

theorem step_consistent {kit : UIKit Image} {fileManager : FileUtilsManager Disk Access}
    {s t : State Image Disk} {e : Event Image Access} (hs : Consistent s)
    (h : step kit fileManager s e = some t) : Consistent t := by
  refine ⟨step_ordered hs.ordered h, step_wired hs.wired h, step_recorded hs.recorded h, ?_⟩
  intro r hr j hj
  apply step_finishedAt h
  rcases step_reports h with
    ⟨hsame, -⟩ | ⟨i, access, x, operations, completion, -, hx, hexecuting, hop, -, hreports⟩
  · rw [hsame] at hr
    exact hs.reported r hr j hj
  · rw [hreports, List.mem_append, List.mem_singleton] at hr
    rcases hr with hold | rfl
    · exact hs.reported r hold j hj
    · apply operands_finished hs.ordered hx hexecuting
      rw [hop]
      exact hj

/-- A reported write counts as a success unless it failed or was skipped without data. -/
theorem successAt_iff {s : State Image Disk} {j : ℕ}
    (h : successAt s.entries j = (s.env.saved j).getD (writeDataAt s.entries j).isSome) :
    successAt s.entries j = true ↔ ¬ FailedOrEmpty s j := by
  rw [h, FailedOrEmpty]
  cases s.env.saved j with
  | some success => cases success <;> simp
  | none => cases writeDataAt s.entries j <;> simp

/-- A success is reported of written data only, exactly when a skipped write shows. -/
theorem report_iff {s : State Image Disk} {operations : List ℕ} {isCancelled : Bool}
    (h : ∀ j ∈ operations, (successAt s.entries j = true ↔ ¬ FailedOrEmpty s j)) :
    ((!isCancelled && operations.all (successAt s.entries)) = true →
        ∀ j ∈ operations, s.env.saved j = some true) ↔
      (isCancelled = false → (∃ j ∈ operations, s.env.saved j = none) →
        ∃ j ∈ operations, FailedOrEmpty s j) := by
  rw [Bool.and_eq_true, Bool.not_eq_true', List.all_eq_true]
  constructor
  · rintro hreport hcancelled ⟨j, hj, hskipped⟩
    by_contra hnone
    have hall : ∀ k ∈ operations, successAt s.entries k = true :=
      fun k hk => (h k hk).mpr fun hbad => hnone ⟨k, hk, hbad⟩
    have htrue := hreport ⟨hcancelled, hall⟩ j hj
    rw [hskipped] at htrue
    cases htrue
  · rintro hseen ⟨hcancelled, hall⟩ j hj
    have hgood := (h j hj).mp (hall j hj)
    cases hsaved : s.env.saved j with
    | none =>
      obtain ⟨k, hk, hbad⟩ := hseen hcancelled ⟨j, hj, hsaved⟩
      exact absurd hbad ((h k hk).mp (hall k hk))
    | some success =>
      cases success with
      | true => rfl
      | false => exact absurd (Or.inl hsaved) hgood

/-- A step keeps the reports honest exactly when it reports no skipped write as done. -/
theorem step_honest_iff {kit : UIKit Image} {fileManager : FileUtilsManager Disk Access}
    {s t : State Image Disk} {e : Event Image Access} (hs : Consistent s)
    (h : step kit fileManager s e = some t) : Honest t ↔ SkippedSeen s e ∧ Honest s := by
  have hsaved : ∀ r ∈ s.env.reports, ∀ j ∈ r.1, t.env.saved j = s.env.saved j :=
    fun r hr j hj => step_saved h (hs.reported r hr j hj)
  rcases step_reports h with
    ⟨hsame, hseen⟩ | ⟨i, access, x, operations, completion, rfl, hx, -, hop, hsavedEq, hreports⟩
  · rw [and_iff_right hseen, Honest, Honest, hsame]
    constructor
    · intro hhonest r hr htrue j hj
      exact (hsaved r hr j hj).symm.trans (hhonest r hr htrue j hj)
    · intro hhonest r hr htrue j hj
      exact (hsaved r hr j hj).trans (hhonest r hr htrue j hj)
  · have hsplit : Honest t ↔ Honest s ∧
        ((!x.isCancelled && operations.all (successAt s.entries)) = true →
          ∀ j ∈ operations, s.env.saved j = some true) := by
      rw [Honest, hreports, hsavedEq]
      constructor
      · intro hhonest
        exact ⟨fun r hr => hhonest r (List.mem_append_left _ hr),
          hhonest _ (List.mem_append_right _ (List.mem_singleton.mpr rfl))⟩
      · rintro ⟨hhonest, hnew⟩ r hr
        rcases List.mem_append.mp hr with hold | hr
        · exact hhonest r hold
        · rw [List.mem_singleton.mp hr]
          exact hnew
    rw [hsplit, and_comm,
      report_iff fun j hj => successAt_iff (successAt_eq hs hx hop j hj)]
    apply and_congr_left'
    constructor
    · intro hseen y ops c hy hyop
      obtain rfl : x = y := Option.some.inj (hx.symm.trans hy)
      obtain ⟨rfl, rfl⟩ := Operation.writeProfile.inj (hop.symm.trans hyop)
      exact hseen
    · intro hseen
      exact hseen x operations completion hx hop

theorem run_honest_iff {kit : UIKit Image} {fileManager : FileUtilsManager Disk Access}
    {s t : State Image Disk} {es : List (Event Image Access)} (hs : Consistent s)
    (h : run (step kit fileManager) s es = some t) :
    Honest t ↔ Along (step kit fileManager) SkippedSeen s es ∧ Honest s := by
  have hiff (s : State Image Disk) (e : Event Image Access) (t : State Image Disk)
      (hs : Consistent s) (h : step kit fileManager s e = some t) :
      Honest t ↔ SkippedSeen s e ∧ Honest s := step_honest_iff hs h
  exact run_iff (fun _ _ _ hs h => step_consistent hs h) hiff hs h

/-- Every report of success is of writes that were made if and only if no save
reports a skipped write that its other writes do not give away. -/
theorem honest_iff (kit : UIKit Image) (fileManager : FileUtilsManager Disk Access)
    (disk : Disk) {es : List (Event Image Access)} {s : State Image Disk}
    (h : run (step kit fileManager) (State.empty kit disk) es = some s) :
    Honest s ↔ Along (step kit fileManager) SkippedSeen (State.empty kit disk) es := by
  have hempty : Honest (State.empty kit disk : State Image Disk) := by
    intro r hr
    simp [State.empty] at hr
  have hiff := run_honest_iff (empty_consistent kit disk) h
  rwa [and_iff_left hempty] at hiff

def nick : ProfileViewModel (Option Data) := ⟨"Nick", "Kazantsev", some .empty⟩

/-- A save whose avatar is cancelled after it has been written. -/
def undisturbedSave : List (OperationQueue.Event ProfileFiles.Access) := [
  .start 0, .main 0 .succeeds,
  .start 2, .main 2 .succeeds, .cancel 2,
  .start 1, .main 1 .succeeds,
  .start 3, .main 3 .succeeds]

theorem honest_undisturbedSave :
    Along (step plainKit FileUtils) SkippedSeen (State.empty plainKit fun _ => none)
      (.save nick :: undisturbedSave.map .operation) := by
  obtain ⟨s, hrun⟩ : ∃ s, run (step plainKit FileUtils) (State.empty plainKit fun _ => none)
      (.save nick :: undisturbedSave.map .operation) = some s := ⟨_, rfl⟩
  have hhonest : Honest s := by
    obtain rfl := Option.some.inj hrun
    unfold Honest
    decide
  exact (honest_iff plainKit FileUtils _ hrun).mp hhonest

/-- `cancelAllOperations` reaches the writes, and the report runs before it is reached. -/
def overtakenCancel : List (OperationQueue.Event ProfileFiles.Access) := [
  .cancel 0, .cancel 1, .cancel 2,
  .start 0, .start 1, .start 2, .start 3, .main 3 .succeeds,
  .cancel 3]

/-- A save of which nothing was written may be reported as successful. -/
theorem not_honest :
    ¬ ∀ (es : List (OperationQueue.Event ProfileFiles.Access)) (s : State (Option Data) Files),
      run (step plainKit FileUtils) (State.empty plainKit fun _ => none)
        (.save nick :: es.map .operation) = some s → Honest s := by
  intro h
  obtain ⟨s, hrun⟩ : ∃ s, run (step plainKit FileUtils) (State.empty plainKit fun _ => none)
      (.save nick :: overtakenCancel.map .operation) = some s := ⟨_, rfl⟩
  have hreport : ([0, 1, 2], true) ∈ s.env.reports ∧ s.env.saved 0 = none := by
    obtain rfl := Option.some.inj hrun
    decide
  have hsaved := h overtakenCancel s hrun _ hreport.1 rfl 0 (List.mem_cons_self ..)
  rw [hreport.2] at hsaved
  cases hsaved

end TinkoffChat.SaveReports

import TinkoffChat.CallAnswers
import TinkoffChat.SaveReports

/-!
Saves that overlap, with no cancellation. The operation that reports a save
reads the success of the three writes added with it, which have finished by then
and keep what `fileManager.save` returned to them. No other operation answers
the call, so its one answer tells of its own writes, whatever runs in between.
-/
namespace TinkoffChat.OverlappingSaves

open PartialRuns ProfileFiles OperationProfileManager CallAnswers SaveReports

variable {Image Disk Access : Type*}

def Cancels : Event Image Access → Prop
  | .operation event => event.IsCancel
  | _ => False

/-- The places of the writes of a save whose operations stand on the queue from base on. -/
def ownWrites (base : ℕ) : List ℕ := [base, base + 1, base + 2]

/-- The writes from base on have returned, and the answer tells whether all got true. -/
structure Tells (base : ℕ) (a : Answer Image) (s : State Image Disk) : Prop where
  finished : ∀ j ∈ ownWrites base, s.isFinishedAt j
  returned : ∀ j ∈ ownWrites base, s.env.saved j ≠ none
  value : ∃ success, a = .saved success ∧
    (success = true ↔ ∀ j ∈ ownWrites base, s.env.saved j = some true)

/-- The save made in the first state, as it stands in the second: its own writes are on the
queue, an answer to it comes after them and tells of them, and there is one in the end. -/
structure ReportsOwn (kit : UIKit Image) (profile : ProfileViewModel Image)
    (s t : State Image Disk) : Prop where
  writes : s.layout created ++ saveOperations kit s.entries.length profile (.caller s.env.calls) <+:
    t.layout created
  tells : ∀ a, (s.env.calls, a) ∈ t.env.answers → Tells s.entries.length a t
  once : t.Drained → answered s.env.calls t.env = 1

/-- Nothing has been cancelled, so what has finished as a write has called `fileManager.save`. -/
structure Uninterrupted (s : State Image Disk) : Prop where
  consistent : Consistent s
  calm : s.Calm
  performed : ∀ (j : ℕ) (x : Entry) data fileName success, s.entries[j]? = some x →
    x.op = .writeDataToDisk data fileName success → x.isFinished = true → s.env.saved j ≠ none

/-- Only the calls made so far are answered or will be. -/
structure Numbered (s : State Image Disk) : Prop where
  operations : ∀ l ∈ s.layout created, ∀ c, answersCall c l.1 = true → c < s.env.calls
  answers : ∀ a ∈ s.env.answers, a.1 < s.env.calls

/-- A call is answered by the operation that reports the writes from base on, and by no other. -/
structure Owned (c base : ℕ) (s : State Image Disk) : Prop where
  called : c < s.env.calls
  alone : ∀ l ∈ s.layout created, answersCall c l.1 = true →
    l.1 = .writeProfile (ownWrites base) (.caller c)
  tells : ∀ a, (c, a) ∈ s.env.answers → Tells base a s

variable {kit : UIKit Image} {fileManager : FileUtilsManager Disk Access}
  {s t : State Image Disk} {e : Event Image Access} {c base i : ℕ} {x : Entry}

theorem answersCall_created (c : ℕ) (op : Operation) :
    answersCall c (created op) = answersCall c op := by
  cases op <;> rfl

theorem grows_answersCall (kit : UIKit Image) {added : List (Operation × List ℕ)}
    (hadded : (∃ profile, added = saveOperations kit base profile (.caller i)) ∨
      ∃ completion, (completion = .caller i ∨ completion = .userDataStore i) ∧
        added = readOperations base completion)
    {l : Operation × List ℕ} (hl : l ∈ added) (hc : answersCall c l.1 = true) : c = i := by
  rcases hadded with ⟨profile, rfl⟩ | ⟨completion, hcompletion, rfl⟩
  · rcases mem_saveOperations hl with ⟨tag, hop⟩ | hop
    · rw [hop] at hc
      cases hc
    · rw [hop] at hc
      exact (of_decide_eq_true hc).symm
  · rcases mem_readOperations hl with ⟨tag, hop⟩ | hop
    · rw [hop] at hc
      cases hc
    · rw [hop] at hc
      rcases hcompletion with rfl | rfl <;> exact (of_decide_eq_true hc).symm

/-- Without cancellation a step is a call, starts an operation or runs a main. -/
theorem uncancelled_cases (hs : s.Calm) (he : ¬ Cancels e)
    (h : step kit fileManager s e = some t) :
    (∃ added, Grows kit s.entries.length added ∧ t = call s added ∧
      ∀ l ∈ added, ∀ c, answersCall c l.1 = true → c = s.env.calls) ∨
    (∃ i x, s.entries[i]? = some x ∧ x.phase = .pending ∧
      t = s.replace i { x with phase := .executing }) ∨
    ∃ i x access, s.entries[i]? = some x ∧ x.phase = .executing ∧ x.isCancelled = false ∧
      t = s.finish i x (main kit fileManager s.entries i x access s.env) := by
  cases e with
  | save profile =>
    exact Or.inl ⟨_, .save profile _, (Option.some.inj h).symm,
      fun l hl c => grows_answersCall kit (Or.inl ⟨profile, rfl⟩) hl⟩
  | read =>
    exact Or.inl ⟨_, .read _, (Option.some.inj h).symm,
      fun l hl c => grows_answersCall kit (Or.inr ⟨_, Or.inl rfl, rfl⟩) hl⟩
  | readProfile =>
    exact Or.inl ⟨_, .read _, (Option.some.inj h).symm,
      fun l hl c => grows_answersCall kit (Or.inr ⟨_, Or.inr rfl, rfl⟩) hl⟩
  | operation event =>
    rcases OperationQueue.calm_step_cases hs he (step_operation kit fileManager s event ▸ h) with
      ⟨i, x, hx, hpending, ht, -⟩ | ⟨i, x, access, -, hx, hexecuting, hcancelled, ht⟩
    · exact Or.inr (Or.inl ⟨i, x, hx, hpending, ht⟩)
    · exact Or.inr (Or.inr ⟨i, x, access, hx, hexecuting, hcancelled, ht⟩)

/-- A main answers the call of its operation, or none. -/
theorem main_answers (kit : UIKit Image) (fileManager : FileUtilsManager Disk Access)
    (entries : List Entry) (i : ℕ) (x : Entry) (access : Access) (env : Env Image Disk) :
    (main kit fileManager entries i x access env).env.answers = env.answers ∨
      ∃ c a, answersCall c x.op = true ∧
        (main kit fileManager entries i x access env).env.answers = env.answers ++ [(c, a)] ∧
        ∀ operations call, x.op = .writeProfile operations (.caller call) →
          a = .saved (!x.isCancelled && operations.all (successAt entries)) := by
  obtain ⟨op, dependencies, phase, isCancelled⟩ := x
  cases op with
  | loadDataFromDisk fileName data => cases isCancelled <;> exact Or.inl rfl
  | writeDataToDisk data fileName success => cases isCancelled <;> exact Or.inl rfl
  | writeProfile operations completion =>
    right
    cases completion with
    | caller call =>
      refine ⟨call, _, decide_eq_true rfl, rfl, ?_⟩
      rintro operations' call' heq
      obtain ⟨rfl, -⟩ := Operation.writeProfile.inj heq
      cases isCancelled <;> simp [List.any_eq_not_all_not]
    | saveDefault call =>
      exact ⟨call, _, decide_eq_true rfl, rfl, fun _ _ heq => by cases heq⟩
  | readProfile n d a completion =>
    cases isCancelled with
    | true => exact Or.inl rfl
    | false =>
      simp only [main, Bool.false_eq_true, if_false]
      generalize profileOf kit _ = profile
      cases completion with
      | caller call =>
        exact Or.inr ⟨call, _, decide_eq_true rfl, rfl, fun _ _ heq => by cases heq⟩
      | userDataStore call =>
        cases profile with
        | none => exact Or.inl rfl
        | some profile =>
          exact Or.inr ⟨call, _, decide_eq_true rfl, rfl, fun _ _ heq => by cases heq⟩

/-- What a main puts on the queue answers the call of a read, and only that. -/
theorem main_added {l : Operation × List ℕ} {entries : List Entry} {access : Access}
    {env : Env Image Disk} (hl : l ∈ (main kit fileManager entries i x access env).added)
    (hc : answersCall c l.1 = true) : answersCall c x.op = true ∧ readsProfile x.op = true := by
  obtain ⟨op, dependencies, phase, isCancelled⟩ := x
  cases op with
  | loadDataFromDisk fileName data => cases isCancelled <;> cases hl
  | writeDataToDisk data fileName success => cases isCancelled <;> cases hl
  | writeProfile operations completion => cases hl
  | readProfile n d a completion =>
    refine ⟨?_, rfl⟩
    cases isCancelled with
    | true => cases hl
    | false =>
      simp only [main, Bool.false_eq_true, if_false] at hl
      generalize profileOf kit _ = profile at hl
      cases completion with
      | caller call => cases hl
      | userDataStore call =>
        cases profile with
        | some profile => cases hl
        | none =>
          rcases mem_saveOperations hl with ⟨tag, hop⟩ | hop
          · rw [hop] at hc
            cases hc
          · rw [hop] at hc
            exact hc

theorem created_mem (hx : s.entries[i]? = some x) :
    (created x.op, x.dependencies) ∈ s.layout created :=
  List.mem_map.mpr ⟨x, List.mem_of_getElem? hx, rfl⟩

theorem step_uninterrupted (hs : Uninterrupted s) (he : ¬ Cancels e)
    (h : step kit fileManager s e = some t) : Uninterrupted t := by
  have hcalm : t.Calm := by
    cases e with
    | operation event => exact OperationQueue.step_calm hs.calm he h
    | save profile =>
      obtain rfl := Option.some.inj h
      exact OperationQueue.addOperations_calm hs.calm _
    | read =>
      obtain rfl := Option.some.inj h
      exact OperationQueue.addOperations_calm hs.calm _
    | readProfile =>
      obtain rfl := Option.some.inj h
      exact OperationQueue.addOperations_calm hs.calm _
  refine ⟨step_consistent hs.consistent h, hcalm, ?_⟩
  intro j y data fileName success hy hop hfinished
  rcases uncancelled_cases hs.calm he h with ⟨added, -, rfl, -⟩ | ⟨i, x, hx, hpending, rfl⟩ |
    ⟨i, x, access, hx, hexecuting, hcancelled, rfl⟩
  · rcases OperationQueue.entry_addOperations_cases hy with hold | ⟨k, a, -, -, rfl⟩
    · exact hs.performed j y data fileName success hold hop hfinished
    · cases hfinished
  · rcases OperationQueue.entry_replace_cases hy with ⟨rfl, rfl⟩ | ⟨-, hold⟩
    · cases hfinished
    · exact hs.performed j y data fileName success hold hop hfinished
  · rcases OperationQueue.entry_finish_cases hy with ⟨rfl, rfl⟩ | ⟨hne, hold⟩ | ⟨k, a, -, -, rfl⟩
    · have hcreated := created_main kit fileManager s.entries j x access s.env
      change (main kit fileManager s.entries j x access s.env).op = _ at hop
      change (main kit fileManager s.entries j x access s.env).env.saved j ≠ none
      obtain ⟨op, dependencies, phase, isCancelled⟩ := x
      obtain rfl : isCancelled = false := hcancelled
      rw [hop] at hcreated
      cases op with
      | writeDataToDisk data fileName success => simp [main]
      | loadDataFromDisk fileName data => cases hcreated
      | writeProfile operations completion => cases hcreated
      | readProfile n d a completion => cases hcreated
    · have hsaved := main_saved_of_ne kit fileManager s.entries hne x access s.env
      change (main kit fileManager s.entries i x access s.env).env.saved j ≠ none
      rw [hsaved]
      exact hs.performed j y data fileName success hold hop hfinished
    · cases hfinished

theorem layout_call {added : List (Operation × List ℕ)} (hadded : Grows kit base added) :
    (call s added).layout created = s.layout created ++ added := by
  rw [call, OperationQueue.layout_addOperations, grows_created hadded]
  rfl

theorem layout_start (hx : s.entries[i]? = some x) :
    (s.replace i { x with phase := .executing }).layout created = s.layout created :=
  OperationQueue.layout_replace hx rfl rfl

theorem layout_main (hx : s.entries[i]? = some x) (access : Access) :
    (s.finish i x (main kit fileManager s.entries i x access s.env)).layout created =
      s.layout created ++ (main kit fileManager s.entries i x access s.env).added := by
  rw [OperationQueue.layout_finish hx (created_main kit fileManager s.entries i x access s.env),
    grows_created (main_grows kit fileManager s.entries i x access s.env)]

theorem step_numbered (hs : Numbered s) (hcalm : s.Calm) (he : ¬ Cancels e)
    (h : step kit fileManager s e = some t) : Numbered t := by
  rcases uncancelled_cases hcalm he h with ⟨added, hgrows, rfl, hadded⟩ |
    ⟨i, x, hx, -, rfl⟩ | ⟨i, x, access, hx, -, -, rfl⟩
  · constructor
    · intro l hl c hc
      change c < s.env.calls + 1
      rw [layout_call hgrows, List.mem_append] at hl
      rcases hl with hold | hnew
      · exact Nat.lt_succ_of_lt (hs.operations l hold c hc)
      · rw [hadded l hnew c hc]
        exact Nat.lt_succ_self _
    · intro a ha
      exact Nat.lt_succ_of_lt (hs.answers a ha)
  · constructor
    · rw [layout_start hx]
      exact hs.operations
    · exact hs.answers
  · have hcalls := main_calls kit fileManager s.entries i x access s.env
    have hcalled (c : ℕ) (hc : answersCall c x.op = true) : c < s.env.calls :=
      hs.operations _ (created_mem hx) c ((answersCall_created c x.op).trans hc)
    constructor
    · intro l hl c hc
      change c < (main kit fileManager s.entries i x access s.env).env.calls
      rw [hcalls]
      rw [layout_main hx access, List.mem_append] at hl
      rcases hl with hold | hnew
      · exact hs.operations l hold c hc
      · exact hcalled c (main_added hnew hc).1
    · intro a ha
      change a.1 < (main kit fileManager s.entries i x access s.env).env.calls
      rw [hcalls]
      rcases main_answers kit fileManager s.entries i x access s.env with
        hsame | ⟨c, b, hc, happended, -⟩
      · exact hs.answers a (hsame ▸ ha)
      · change a ∈ (main kit fileManager s.entries i x access s.env).env.answers at ha
        rw [happended, List.mem_append, List.mem_singleton] at ha
        rcases ha with hold | rfl
        · exact hs.answers a hold
        · exact hcalled c hc

theorem step_tells {a : Answer Image} (ha : Tells base a s)
    (h : step kit fileManager s e = some t) : Tells base a t := by
  have hsaved : ∀ j ∈ ownWrites base, t.env.saved j = s.env.saved j :=
    fun j hj => step_saved h (ha.finished j hj)
  refine ⟨fun j hj => step_finishedAt h (ha.finished j hj), fun j hj => ?_, ?_⟩
  · rw [hsaved j hj]
    exact ha.returned j hj
  · obtain ⟨success, heq, hiff⟩ := ha.value
    refine ⟨success, heq, hiff.trans (forall₂_congr fun j hj => ?_)⟩
    rw [hsaved j hj]

/-- What reports the writes finds them finished, and so with what they returned. -/
theorem tells_of_executing (hs : Uninterrupted s) (hx : s.entries[i]? = some x)
    (hexecuting : x.phase = .executing) (hcancelled : x.isCancelled = false)
    (hop : x.op = .writeProfile (ownWrites base) (.caller c)) :
    Tells base (.saved (!x.isCancelled && (ownWrites base).all (successAt s.entries))) s := by
  have hfinished : ∀ j ∈ ownWrites base, s.isFinishedAt j := fun j hj =>
    operands_finished hs.consistent.ordered hx hexecuting (hop ▸ hj)
  have hreturned : ∀ j ∈ ownWrites base, s.env.saved j ≠ none := by
    intro j hj
    obtain ⟨y, hy, hyfinished⟩ := OperationQueue.isFinishedAt_iff.mp (hfinished j hj)
    have hmem : (s.layout created)[i]? =
        some (.writeProfile (ownWrites base) (.caller c), x.dependencies) := by
      rw [OperationQueue.State.layout, List.getElem?_map, hx, Option.map_some, hop]
      rfl
    obtain ⟨data, fileName, hwrite⟩ := hs.consistent.wired i _ _ _ hmem j hj
    rw [OperationQueue.State.layout, List.getElem?_map, hy, Option.map_some,
      Option.some.injEq, Prod.mk.injEq] at hwrite
    cases hyop : y.op with
    | writeDataToDisk d f success => exact hs.performed j y d f success hy hyop hyfinished
    | loadDataFromDisk f d => rw [hyop] at hwrite; cases hwrite.1
    | writeProfile ops completion => rw [hyop] at hwrite; cases hwrite.1
    | readProfile n d a completion => rw [hyop] at hwrite; cases hwrite.1
  refine ⟨hfinished, hreturned, _, rfl, ?_⟩
  rw [hcancelled, Bool.not_false, Bool.true_and, List.all_eq_true]
  apply forall₂_congr
  intro j hj
  obtain ⟨success, hsuccess⟩ := Option.ne_none_iff_exists'.mp (hreturned j hj)
  rw [successAt_eq hs.consistent hx hop j hj, hsuccess, Option.getD_some, Option.some.injEq]

theorem owned_op (ho : Owned c base s) (hx : s.entries[i]? = some x)
    (hc : answersCall c x.op = true) : x.op = .writeProfile (ownWrites base) (.caller c) := by
  have hcreated := ho.alone _ (created_mem hx) ((answersCall_created c x.op).trans hc)
  cases hop : x.op <;> rw [hop] at hcreated <;> cases hcreated
  rfl

theorem step_owned (hs : Uninterrupted s) (ho : Owned c base s) (he : ¬ Cancels e)
    (h : step kit fileManager s e = some t) : Owned c base t := by
  have hold : ∀ a, (c, a) ∈ s.env.answers → Tells base a t := fun a ha =>
    step_tells (ho.tells a ha) h
  rcases uncancelled_cases hs.calm he h with ⟨added, hgrows, rfl, hadded⟩ |
    ⟨i, x, hx, -, rfl⟩ | ⟨i, x, access, hx, hexecuting, hcancelled, rfl⟩
  · refine ⟨Nat.lt_succ_of_lt ho.called, ?_, hold⟩
    intro l hl hc
    rw [layout_call hgrows, List.mem_append] at hl
    rcases hl with hl | hnew
    · exact ho.alone l hl hc
    · exact absurd (hadded l hnew c hc) (Nat.ne_of_lt ho.called)
  · refine ⟨ho.called, ?_, hold⟩
    rw [layout_start hx]
    exact ho.alone
  · have hcalls := main_calls kit fileManager s.entries i x access s.env
    refine ⟨hcalls.symm ▸ ho.called, ?_, ?_⟩
    · intro l hl hc
      rw [layout_main hx access, List.mem_append] at hl
      rcases hl with hl | hnew
      · exact ho.alone l hl hc
      · obtain ⟨hanswers, hreads⟩ := main_added hnew hc
        rw [owned_op ho hx hanswers] at hreads
        cases hreads
    · intro a ha
      change (c, a) ∈ (main kit fileManager s.entries i x access s.env).env.answers at ha
      rcases main_answers kit fileManager s.entries i x access s.env with
        hsame | ⟨c', b, hc, happended, hvalue⟩
      · exact hold a (hsame ▸ ha)
      · rw [happended, List.mem_append, List.mem_singleton] at ha
        rcases ha with ha | ha
        · exact hold a ha
        · obtain ⟨rfl, rfl⟩ := Prod.mk.inj ha
          have hop := owned_op ho hx hc
          rw [hvalue _ _ hop]
          exact step_tells (tells_of_executing hs hx hexecuting hcancelled hop) h

theorem empty_uninterrupted (kit : UIKit Image) (disk : Disk) :
    Uninterrupted (State.empty kit disk) :=
  ⟨empty_consistent kit disk, fun _ _ hx _ => (by cases hx), fun _ _ _ _ _ hx => (by cases hx)⟩

theorem empty_numbered (kit : UIKit Image) (disk : Disk) : Numbered (State.empty kit disk) :=
  ⟨fun _ hl => absurd hl List.not_mem_nil, fun _ ha => absurd ha List.not_mem_nil⟩

/-- A new save owns its call: no operation or answer is there for it before. -/
theorem save_owned (hs : Numbered s) (profile : ProfileViewModel Image) :
    Owned s.env.calls s.entries.length
      (call s (saveOperations kit s.entries.length profile (.caller s.env.calls))) := by
  refine ⟨Nat.lt_succ_self _, ?_, ?_⟩
  · intro l hl hc
    rw [layout_call (.save profile _), List.mem_append] at hl
    rcases hl with hold | hnew
    · exact absurd (hs.operations l hold _ hc) (Nat.lt_irrefl _)
    · rcases mem_saveOperations hnew with ⟨tag, hop⟩ | hop
      · rw [hop] at hc
        cases hc
      · exact hop
  · intro a ha
    exact absurd (hs.answers _ ha) (Nat.lt_irrefl _)

/-- What is not cancelled gives its answer. -/
theorem not_swallows (hs : s.Calm) (he : ¬ Cancels e) (h : step kit fileManager s e = some t) :
    ¬ Swallows s e := by
  rintro ⟨c, hc⟩
  cases e with
  | save profile => cases hc
  | read => cases hc
  | readProfile => cases hc
  | operation event =>
    rw [step_operation] at h
    cases event with
    | cancel i => exact he trivial
    | start i =>
      obtain ⟨x, hx, hpending, -, -⟩ := OperationQueue.start_eq_some.mp h
      have hcancelled := hs i x hx (OperationQueue.Entry.not_finished_of_pending hpending)
      simp [swallows, hx, hcancelled] at hc
    | main i access =>
      obtain ⟨x, hx, hexecuting, -⟩ := OperationQueue.main_eq_some.mp h
      have hcancelled := hs i x hx (OperationQueue.Entry.not_finished_of_executing hexecuting)
      simp [swallows, hx, hcancelled] at hc

/-- Without cancellation every call has been answered once when the queue is drained. -/
theorem uncancelled_answeredOnce (kit : UIKit Image) (fileManager : FileUtilsManager Disk Access)
    (disk : Disk) {es : List (Event Image Access)} (hes : ∀ e ∈ es, ¬ Cancels e)
    (hrun : run (step kit fileManager) (State.empty kit disk) es = some t)
    (hdrained : t.Drained) : AnsweredOnce t := by
  have halong : Along (step kit fileManager) (fun s e => ¬ Swallows s e)
      (State.empty kit disk) es :=
    along_of_invariant (fun _ _ _ hs he h => step_uninterrupted hs he h)
      (fun _ _ _ hs he h => not_swallows hs.calm he h) (empty_uninterrupted kit disk)
      (along_of_forall_mem (fun e he _ => hes e he) _) hrun
  have howed := (run_owedOnce_iff (empty_balanced kit disk) hrun).mpr
    ⟨halong, fun c hc => absurd hc (Nat.not_lt_zero c)⟩
  intro c hc
  rw [← howed c hc, owed, OperationQueue.live_drained _ hdrained, Nat.add_zero]

theorem step_layout_grows (h : step kit fileManager s e = some t) :
    s.layout created <+: t.layout created := by
  obtain ⟨added, -, hlayout⟩ := step_layout h
  exact ⟨added, hlayout.symm⟩

theorem run_layout_grows {es : List (Event Image Access)}
    (h : run (step kit fileManager) s es = some t) : s.layout created <+: t.layout created := by
  have hstep : ∀ (u : State Image Disk) e v, s.layout created <+: u.layout created →
      step kit fileManager u e = some v → s.layout created <+: v.layout created :=
    fun _ _ _ hprefix h => hprefix.trans (step_layout_grows h)
  exact run_invariant hstep (List.prefix_refl _) h

/-- Whatever calls and operations come before, in between and after, a save is answered
once, after its own writes, with whether all of them got true. -/
theorem saves_reportOwn (kit : UIKit Image) (fileManager : FileUtilsManager Disk Access)
    (disk : Disk) {before rest : List (Event Image Access)} (profile : ProfileViewModel Image)
    {s t : State Image Disk}
    (hs : run (step kit fileManager) (State.empty kit disk) before = some s)
    (ht : run (step kit fileManager) s (.save profile :: rest) = some t)
    (hbefore : ∀ e ∈ before, ¬ Cancels e) (hrest : ∀ e ∈ rest, ¬ Cancels e) :
    ReportsOwn kit profile s t := by
  obtain ⟨u, hu, hut⟩ := run_cons_eq_some.mp ht
  have hstart : Uninterrupted s ∧ Numbered s := by
    have hstep : ∀ (s : State Image Disk) e t, Uninterrupted s ∧ Numbered s → ¬ Cancels e →
        step kit fileManager s e = some t → Uninterrupted t ∧ Numbered t := by
      rintro s e t ⟨hs, hnumbered⟩ he h
      exact ⟨step_uninterrupted hs he h, step_numbered hnumbered hs.calm he h⟩
    exact run_invariant_along hstep ⟨empty_uninterrupted kit disk, empty_numbered kit disk⟩
      (along_of_forall_mem (fun e he _ => hbefore e he) _) hs
  have hcalled : Uninterrupted u ∧ Owned s.env.calls s.entries.length u :=
    ⟨step_uninterrupted hstart.1 id hu, Option.some.inj hu ▸ save_owned hstart.2 profile⟩
  have hlayout : u.layout created = s.layout created ++
      saveOperations kit s.entries.length profile (.caller s.env.calls) :=
    Option.some.inj hu ▸ layout_call (.save profile _)
  have hend : Uninterrupted t ∧ Owned s.env.calls s.entries.length t := by
    have hstep : ∀ (v : State Image Disk) e w,
        Uninterrupted v ∧ Owned s.env.calls s.entries.length v → ¬ Cancels e →
          step kit fileManager v e = some w →
            Uninterrupted w ∧ Owned s.env.calls s.entries.length w := by
      rintro v e w ⟨hv, howned⟩ he h
      exact ⟨step_uninterrupted hv he h, step_owned hv howned he h⟩
    exact run_invariant_along hstep hcalled (along_of_forall_mem (fun e he _ => hrest e he) _) hut
  refine ⟨hlayout ▸ run_layout_grows hut, hend.2.tells, fun hdrained => ?_⟩
  have hall : ∀ e ∈ before ++ .save profile :: rest, ¬ Cancels e := by
    intro e he
    rcases List.mem_append.mp he with he | he
    · exact hbefore e he
    · rcases List.mem_cons.mp he with rfl | he
      · exact id
      · exact hrest e he
  have hrun : run (step kit fileManager) (State.empty kit disk)
      (before ++ .save profile :: rest) = some t := (run_append_of_run hs).trans ht
  exact uncancelled_answeredOnce kit fileManager disk hall hrun hdrained _ hend.2.called

/-- The operations of two saves in turns; a write of the first one fails. -/
def turns : List (Event (Option Data) ProfileFiles.Access) :=
  [.operation (.start 0), .operation (.start 4), .operation (.main 4 .succeeds),
    .operation (.main 0 (.fails none)), .operation (.start 5), .operation (.start 1),
    .operation (.main 1 .succeeds), .operation (.main 5 .succeeds), .operation (.start 6),
    .operation (.main 6 .succeeds), .operation (.start 7), .operation (.main 7 .succeeds)]

def nick : ProfileViewModel (Option Data) := ⟨"Nick", "Kazantsev", some .empty⟩

theorem saves_reportOwn_turns :
    ∃ s t, run (step plainKit FileUtils) (State.empty plainKit fun _ => none)
        [.save nick] = some s ∧
      run (step plainKit FileUtils) s (.save nick :: turns) = some t ∧
      ReportsOwn plainKit nick s t := by
  obtain ⟨s, hs⟩ : ∃ s, run (step plainKit FileUtils) (State.empty plainKit fun _ => none)
      [.save nick] = some s := ⟨_, rfl⟩
  obtain ⟨t, ht⟩ : ∃ t, run (step plainKit FileUtils) s (.save nick :: turns) = some t := by
    obtain rfl := Option.some.inj hs
    exact ⟨_, rfl⟩
  refine ⟨s, t, hs, ht, saves_reportOwn plainKit FileUtils _ nick hs ht ?_ ?_⟩
  · intro e he
    obtain rfl := List.mem_singleton.mp he
    exact id
  · intro e he
    simp only [turns, List.mem_cons, List.not_mem_nil, or_false] at he
    rcases he with
      rfl | rfl | rfl | rfl | rfl | rfl | rfl | rfl | rfl | rfl | rfl | rfl <;> exact id

end TinkoffChat.OverlappingSaves

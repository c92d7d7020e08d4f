import TinkoffChat.ProfileTransfers

/-!
A read on its own. Until it parses, its loads and the parse are all that is left
to run, the loads find what the files held when it was made, and nothing is
answered. The parse then makes the profile, with nothing else left to run.
-/
namespace TinkoffChat.ProfileLoads

open PartialRuns ProfileFiles OperationProfileManager ProfileTransfers

variable {Image : Type*}

/-- Steps of the queue alone: no call and no cancellation. -/
def Uncancelled : Event Image Access → Prop
  | .operation (.start _) => True
  | .operation (.main _ _) => True
  | _ => False

/-- Where a read made in the state has its load operations. -/
def places (s : ProfileQueue Image) : ProfileItemsTags → ℕ :=
  loadAt s.entries.length (s.entries.length + 1) (s.entries.length + 2)

/-- A read that was made in the first state has not parsed yet in the second. -/
structure Loads (completion : ReadCompletion) (failing : Prop) (s t : ProfileQueue Image) :
    Prop where
  recent : ∀ (i : ℕ) op, t.progress[i]? = some (op, false) → s.entries.length ≤ i
  layout_eq : t.layout created = s.layout created ++
    readOperations s.entries.length completion
  reading : Reading failing (contents s.env.disk) (places s) t
  answers_eq : t.env.answers = s.env.answers
  unread : ∃ op, t.progress[s.entries.length + 3]? = some (op, false)

variable {kit : UIKit Image} {s t u : ProfileQueue Image} {completion : ReadCompletion}
  {failing : Prop} {i : ℕ} {x : Entry} {access : Access}

theorem uncancelled_step_cases {e : Event Image Access} (hs : s.Calm) (he : Uncancelled e)
    (h : step kit FileUtils s e = some t) :
    (t.Calm ∧ t.progress = s.progress ∧ t.env = s.env ∧
      t.layout created = s.layout created ∧ ∃ i, e = .operation (.start i)) ∨
    ∃ i x access, e = .operation (.main i access) ∧ t.Calm ∧ s.entries[i]? = some x ∧
      x.phase = .executing ∧ x.isCancelled = false ∧ t = ran kit s i x access := by
  cases e with
  | save profile => exact absurd he id
  | read => exact absurd he id
  | readProfile => exact absurd he id
  | operation event =>
    have hcancel : ¬ event.IsCancel := by
      intro hcancel
      cases event with
      | cancel i => exact he
      | start i => exact hcancel
      | main i access => exact hcancel
    rw [step_operation] at h
    have hcalm := OperationQueue.step_calm hs hcancel h
    cases event with
    | cancel i => exact absurd he id
    | start i =>
      rcases OperationQueue.calm_step_cases hs hcancel h with
        ⟨j, x, hx, -, rfl, hprogress⟩ | ⟨j, x, access, heq, -⟩
      · exact Or.inl ⟨hcalm, hprogress, rfl, OperationQueue.layout_replace hx rfl rfl, _, rfl⟩
      · cases heq
    | main i access =>
      obtain ⟨x, hx, hexecuting, rfl⟩ := OperationQueue.main_eq_some.mp h
      exact Or.inr ⟨i, x, access, rfl, hcalm, hx, hexecuting,
        hs i x hx (OperationQueue.Entry.not_finished_of_executing hexecuting), rfl⟩

theorem step_uncancelled {e : Event Image Access} (hordered : Ordered s) (hcalm : s.Calm)
    (he : Uncancelled e) (h : step kit FileUtils s e = some t) : Ordered t ∧ t.Calm := by
  refine ⟨step_ordered hordered h, ?_⟩
  rcases uncancelled_step_cases hcalm he h with ⟨hcalm, -⟩ | ⟨-, -, -, -, hcalm, -⟩
  · exact hcalm
  · exact hcalm

/-- What the steps of the queue preserve, they preserve in order and without cancellation. -/
theorem run_uncancelled {P : ProfileQueue Image → Event Image Access → Prop}
    {Inv : ProfileQueue Image → Prop} (hp : ∀ s e, P s e → Uncancelled e)
    (hstep : ∀ s e t, Inv s → Ordered s → s.Calm → P s e → step kit FileUtils s e = some t → Inv t)
    {es : List (Event Image Access)} (hs : Inv s) (hordered : Ordered s) (hcalm : s.Calm)
    (hes : Along (step kit FileUtils) P s es) (h : run (step kit FileUtils) s es = some t) :
    Inv t ∧ Ordered t ∧ t.Calm := by
  have hall : ∀ s e t, (Inv s ∧ Ordered s ∧ s.Calm) → P s e → step kit FileUtils s e = some t →
      Inv t ∧ Ordered t ∧ t.Calm := ?_
  · exact run_invariant_along hall ⟨hs, hordered, hcalm⟩ hes h
  rintro s e t ⟨hs, hordered, hcalm⟩ he h
  exact ⟨hstep s e t hs hordered hcalm he h, step_uncancelled hordered hcalm (hp s e he) h⟩

/-- The operation at a place that was added last is one of those added. -/
theorem created_of_layout {added : List (Operation × List ℕ)} {i : ℕ} {x : Entry}
    (hlayout : t.layout created = s.layout created ++ added) (hi : s.entries.length ≤ i)
    (hx : t.entries[i]? = some x) :
    ∃ a, added[i - s.entries.length]? = some a ∧ created x.op = a.1 := by
  have hview : (t.layout created)[i]? = some (created x.op, x.dependencies) := by
    rw [OperationQueue.State.layout, List.getElem?_map, hx]
    rfl
  have hlength : (s.layout created).length = s.entries.length := List.length_map _
  rw [hlayout, List.getElem?_append_right (hlength ▸ hi), hlength] at hview
  exact ⟨_, hview, rfl⟩

theorem call_loads (hs : s.Drained) (completion : ReadCompletion) :
    Loads completion failing s (call s (readOperations s.entries.length completion)) := by
  refine ⟨?_, OperationQueue.layout_addOperations _, read_reading _, rfl,
    ⟨_, OperationQueue.progress_addOperations_new rfl⟩⟩
  intro i op hop
  rcases OperationQueue.progress_addOperations_cases hop with hold | ⟨-, k, b, rfl, -, -⟩
  · exact absurd trivial (settled_of_drained hs (fun _ => True) i op hold)
  · exact Nat.le_add_right _ _

theorem loads_congr (hs : Loads completion failing s t) (hprogress : u.progress = t.progress)
    (henv : u.env = t.env) (hlayout : u.layout created = t.layout created) :
    Loads completion failing s u := by
  refine ⟨?_, hlayout.trans hs.layout_eq,
    reading_congr hs.reading hprogress (congrArg Env.disk henv), ?_, ?_⟩
  · rw [hprogress]
    exact hs.recent
  · rw [henv]
    exact hs.answers_eq
  · rw [hprogress]
    exact hs.unread

/-- What runs while a read loads: one of its loads, or its parse. -/
theorem loads_cases (hs : Loads completion failing s t) (hx : t.entries[i]? = some x)
    (hlive : x.isFinished = false) :
    (∃ tag f data, i = places s tag ∧ x.op = .loadDataFromDisk f data) ∨
      (i = s.entries.length + 3 ∧ x.op = .readProfile s.entries.length (s.entries.length + 1)
        (s.entries.length + 2) completion) := by
  have hi : s.entries.length ≤ i :=
    hs.recent i x.op (hlive ▸ OperationQueue.progress_of_entry hx)
  obtain ⟨a, ha, hcreated⟩ := created_of_layout hs.layout_eq hi hx
  rcases readOperations_cases ha with ⟨tag, htag, hload⟩ | ⟨hk, hread⟩
  · left
    rw [hload] at hcreated
    rw [Nat.add_sub_cancel' hi] at htag
    cases hop : x.op <;> rw [hop] at hcreated <;> cases hcreated
    exact ⟨tag, _, _, htag, rfl⟩
  · right
    rw [hread] at hcreated
    refine ⟨by omega, ?_⟩
    cases hop : x.op <;> rw [hop] at hcreated <;> cases hcreated
    rfl

theorem places_ne (s : ProfileQueue Image) (tag : ProfileItemsTags) :
    s.entries.length + 3 ≠ places s tag := by
  cases tag <;> simp only [places, loadAt] <;> omega

/-- A load leaves the rest to run, and the environment as it is. -/
theorem load_loads (hs : Loads completion failing s t) (hx : t.entries[i]? = some x)
    (hexecuting : x.phase = .executing) (hcancelled : x.isCancelled = false)
    (haccess : failing ∨ access = .succeeds) {tag : ProfileItemsTags} (hi : i = places s tag)
    {f : String} {data : Option Data} (hload : x.op = .loadDataFromDisk f data) :
    Loads completion failing s (ran kit t i x access) ∧ (ran kit t i x access).env = t.env := by
  have hmain : main kit FileUtils t.entries i x access t.env = _ := main_load hcancelled hload
  have henv : (ran kit t i x access).env = t.env := congrArg OperationQueue.Outcome.env hmain
  refine ⟨⟨?_, ?_, ?_, ?_, ?_⟩, henv⟩
  · intro j op hop
    rcases OperationQueue.progress_finish_cases hop with
      ⟨-, -, hdone⟩ | ⟨-, hold⟩ | ⟨-, -, a, ha, -⟩
    · cases hdone
    · exact hs.recent j op hold
    · rw [hmain] at ha
      cases ha
  · rw [← hs.layout_eq, ran, OperationQueue.layout_finish hx (created_main ..), hmain]
    exact List.append_nil _
  · exact main_reading hs.reading hx hexecuting hcancelled (fun _ => haccess)
      fun hwrite => absurd hwrite (by rw [hload]; exact id)
  · rw [henv]
    exact hs.answers_eq
  · obtain ⟨op, hunread⟩ := hs.unread
    exact ⟨op, OperationQueue.progress_finish_of_ne hunread (hi ▸ places_ne s tag) _⟩

section Parse

variable (hs : Loads completion failing s t) (hordered : Ordered t)
  (hx : t.entries[s.entries.length + 3]? = some x) (hexecuting : x.phase = .executing)
  (hop : x.op = .readProfile s.entries.length (s.entries.length + 1) (s.entries.length + 2)
    completion)

include hordered hx hexecuting hop

theorem loads_finished (tag : ProfileItemsTags) : t.isFinishedAt (places s tag) := by
  apply operands_finished hordered hx hexecuting
  rw [hop]
  cases tag <;> simp [operands, places, loadAt]

include hs

/-- The parse finds in each load what the file held, or nothing if that load failed. -/
theorem parse_finds (tag : ProfileItemsTags) :
    dataAt t.entries (places s tag) = contents s.env.disk tag ∨
      failing ∧ dataAt t.entries (places s tag) = none :=
  dataAt_of_reading hs.reading (loads_finished hordered hx hexecuting hop) tag

/-- When the parse runs, all else has. -/
theorem parse_last {j : ℕ} {op : Operation} (hj : j ≠ s.entries.length + 3) :
    t.progress[j]? ≠ some (op, false) := by
  intro hlive
  obtain ⟨y, hy, rfl, hynot⟩ := OperationQueue.entry_of_progress hlive
  rcases loads_cases hs hy hynot with ⟨tag, f, data, rfl, -⟩ | ⟨heq, -⟩
  · obtain ⟨z, hz, hdone⟩ :=
      OperationQueue.isFinishedAt_iff.mp (loads_finished hordered hx hexecuting hop tag)
    obtain rfl : y = z := Option.some.inj (hy.symm.trans hz)
    rw [hynot] at hdone
    cases hdone
  · exact hj heq

end Parse

/-- What the parse leaves to the completion. -/
theorem main_parse (hcancelled : x.isCancelled = false)
    (hop : x.op = .readProfile s.entries.length (s.entries.length + 1) (s.entries.length + 2)
      completion) :
    main kit FileUtils t.entries i x access t.env =
      ⟨x.op, (completion.invoke kit t.entries.length
        (profileOf kit fun tag => dataAt t.entries (places s tag)) t.env).1,
        (completion.invoke kit t.entries.length
          (profileOf kit fun tag => dataAt t.entries (places s tag)) t.env).2⟩ := by
  simp only [main, hop, hcancelled, Bool.false_eq_true, if_false, places]

end TinkoffChat.ProfileLoads

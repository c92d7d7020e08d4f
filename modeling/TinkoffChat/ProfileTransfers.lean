import TinkoffChat.OperationProfileManager

/-!
How the operations of a call move data, over `FileUtils` and without
cancellation. A save aims at contents of the three files, and what a file does
not hold yet is still to be written to it. The loads of a read find what the
files held when the read was made.
-/
namespace TinkoffChat.ProfileTransfers

open ProfileFiles OperationProfileManager

variable {Image : Type*}

abbrev ProfileQueue (Image : Type*) := OperationProfileManager.State Image Files

def IsWrite : Operation → Prop
  | .writeDataToDisk _ _ _ => True
  | _ => False

def IsLoad : Operation → Prop
  | .loadDataFromDisk _ _ => True
  | _ => False

theorem isWrite_iff {op : Operation} :
    IsWrite op ↔ ∃ d f success, op = .writeDataToDisk d f success := by
  constructor
  · intro h
    cases op with
    | writeDataToDisk d f success => exact ⟨d, f, success, rfl⟩
    | loadDataFromDisk f data => exact h.elim
    | writeProfile operations completion => exact h.elim
    | readProfile n d a completion => exact h.elim
  · rintro ⟨d, f, success, rfl⟩
    trivial

/-- No operation of the kind is still to run. -/
def Settled (kind : Operation → Prop) (s : ProfileQueue Image) : Prop :=
  ∀ (i : ℕ) op, s.progress[i]? = some (op, false) → ¬ kind op

/-- The unfinished writes aim at the goal, and a file that is not there yet has an
unfinished write, or one that failed. -/
structure Writing (goal : Contents) (base : ℕ) (s : ProfileQueue Image) : Prop where
  recent : ∀ (i : ℕ) op, s.progress[i]? = some (op, false) → base ≤ i
  aimed : ∀ (i : ℕ) d f success,
    s.progress[i]? = some (.writeDataToDisk d f success, false) →
      ∃ tag : ProfileItemsTags, f = tag.rawValue ∧ ∀ data, d = some data → goal tag = some data
  reached : ∀ tag, contents s.env.disk tag = goal tag ∨
    ∃ (i : ℕ) (data : Data) (success finished : Bool), base ≤ i ∧
      s.progress[i]? = some (.writeDataToDisk (some data) tag.rawValue success, finished) ∧
      (finished = false ∨ success = false)

/-- The loads have found the source, and one that has not run yet will find it. -/
def Reading (failing : Prop) (src : Contents) (place : ProfileItemsTags → ℕ)
    (s : ProfileQueue Image) : Prop :=
  ∀ tag : ProfileItemsTags, ∃ data finished,
    s.progress[place tag]? = some (.loadDataFromDisk tag.rawValue data, finished) ∧
    (finished = false → contents s.env.disk = src) ∧
    (finished = true → data = src tag ∨ failing ∧ data = none)

variable {kit : UIKit Image} {s : ProfileQueue Image} {goal src : Contents} {base i : ℕ} {x : Entry}
  {access : Access} {failing : Prop} {place : ProfileItemsTags → ℕ}

/-- `main` of an operation that is not cancelled. -/
abbrev ran (kit : UIKit Image) (s : ProfileQueue Image) (i : ℕ) (x : Entry) (access : Access) :
    ProfileQueue Image :=
  s.finish i x (main kit FileUtils s.entries i x access s.env)

theorem main_write {d : Option Data} {f : String} {success : Bool}
    (hcancelled : x.isCancelled = false) (hop : x.op = .writeDataToDisk d f success) :
    main kit FileUtils s.entries i x access s.env =
      ⟨.writeDataToDisk d f (FileUtils.save d f access s.env.disk).1,
        { s.env with
          disk := (FileUtils.save d f access s.env.disk).2
          saved := Function.update s.env.saved i
            (some (FileUtils.save d f access s.env.disk).1) }, []⟩ := by
  simp only [main, hop, hcancelled, Bool.false_eq_true, if_false]
  rfl

theorem main_load {f : String} {data : Option Data}
    (hcancelled : x.isCancelled = false) (hop : x.op = .loadDataFromDisk f data) :
    main kit FileUtils s.entries i x access s.env =
      ⟨.loadDataFromDisk f (FileUtils.read f access s.env.disk), s.env, []⟩ := by
  simp only [main, hop, hcancelled, Bool.false_eq_true, if_false]
  rfl

theorem main_disk (hop : ¬ IsWrite x.op) :
    (main kit FileUtils s.entries i x access s.env).env.disk = s.env.disk := by
  obtain ⟨op, dependencies, phase, isCancelled⟩ := x
  cases op with
  | writeDataToDisk d f success => exact absurd trivial hop
  | loadDataFromDisk f data => cases isCancelled <;> rfl
  | writeProfile operations completion => simp [main]
  | readProfile n d a completion => cases isCancelled <;> simp [main]

/-- Only a read that finds no profile puts operations on the queue. -/
theorem main_added_nil (hop : ∀ n d a completion, x.op ≠ .readProfile n d a completion) :
    (main kit FileUtils s.entries i x access s.env).added = [] := by
  obtain ⟨op, dependencies, phase, isCancelled⟩ := x
  cases op with
  | loadDataFromDisk f data => cases isCancelled <;> rfl
  | writeDataToDisk d f success => cases isCancelled <;> rfl
  | writeProfile operations completion => rfl
  | readProfile n d a completion => exact absurd rfl (hop n d a completion)

theorem settled_of_drained (hs : s.Drained) (kind : Operation → Prop) : Settled kind s := by
  intro i op hop
  obtain ⟨x, hx, -, hlive⟩ := OperationQueue.entry_of_progress hop
  rw [hs x (List.mem_of_getElem? hx)] at hlive
  cases hlive

/-- With every write run and successful, the files are where they were aimed at. -/
theorem contents_of_writing (hs : Writing goal base s)
    (hdone : ∀ (i : ℕ) data f success finished, base ≤ i →
      s.progress[i]? = some (.writeDataToDisk (some data) f success, finished) →
        finished = true ∧ success = true) :
    contents s.env.disk = goal := by
  funext tag
  rcases hs.reached tag with hthere | ⟨i, data, success, finished, hbase, hwrite, hmissing⟩
  · exact hthere
  · obtain ⟨rfl, rfl⟩ := hdone i data tag.rawValue success finished hbase hwrite
    rcases hmissing with hmissing | hmissing <;> cases hmissing

theorem writing_congr {t : ProfileQueue Image} (hs : Writing goal base s)
    (hprogress : t.progress = s.progress) (hdisk : t.env.disk = s.env.disk) :
    Writing goal base t := by
  constructor
  · rw [hprogress]
    exact hs.recent
  · rw [hprogress]
    exact hs.aimed
  · rw [hprogress, hdisk]
    exact hs.reached

theorem reading_congr {t : ProfileQueue Image} (hs : Reading failing src place s)
    (hprogress : t.progress = s.progress) (hdisk : t.env.disk = s.env.disk) :
    Reading failing src place t := by
  rw [Reading, hprogress, hdisk]
  exact hs

/-- What is on the queue after a save was made was there before, or is one of its operations. -/
theorem progress_save_cases {profile : ProfileViewModel Image} {completion : SaveCompletion}
    {op : Operation} {finished : Bool}
    (h : (call s (saveOperations kit s.entries.length profile completion)).progress[i]? =
      some (op, finished)) :
    s.progress[i]? = some (op, finished) ∨ s.entries.length ≤ i ∧
      ((∃ tag, op = writeOperation (encoding kit profile tag) tag) ∨
        op = .writeProfile [s.entries.length, s.entries.length + 1, s.entries.length + 2]
          completion) := by
  rcases OperationQueue.progress_addOperations_cases h with hold | ⟨-, k, a, rfl, ha, rfl⟩
  · exact Or.inl hold
  · exact Or.inr ⟨Nat.le_add_right _ _, mem_saveOperations (List.mem_of_getElem? ha)⟩

theorem progress_read_cases {completion : ReadCompletion} {op : Operation} {finished : Bool}
    (h : (call s (readOperations s.entries.length completion)).progress[i]? =
      some (op, finished)) :
    s.progress[i]? = some (op, finished) ∨ s.entries.length ≤ i ∧
      ((∃ tag, op = loadOperation tag) ∨ op = .readProfile s.entries.length
        (s.entries.length + 1) (s.entries.length + 2) completion) := by
  rcases OperationQueue.progress_addOperations_cases h with hold | ⟨-, k, a, rfl, ha, rfl⟩
  · exact Or.inl hold
  · exact Or.inr ⟨Nat.le_add_right _ _, mem_readOperations (List.mem_of_getElem? ha)⟩

/-- A save makes the files that have data for it its goal. -/
theorem save_writing (hs : Settled IsWrite s)
    (hold : ∀ (i : ℕ) op, s.progress[i]? = some (op, false) → base ≤ i)
    (hbase : base ≤ s.entries.length) (profile : ProfileViewModel Image)
    (completion : SaveCompletion) :
    Writing (fun tag => (encoding kit profile tag).or (contents s.env.disk tag)) base
      (call s (saveOperations kit s.entries.length profile completion)) := by
  set t := call s (saveOperations kit s.entries.length profile completion)
  constructor
  · intro i op hop
    rcases progress_save_cases hop with hold' | ⟨hge, -⟩
    · exact hold i op hold'
    · exact Nat.le_trans hbase hge
  · intro i d f success hop
    rcases progress_save_cases hop with hold' | ⟨-, ⟨tag, heq⟩ | heq⟩
    · exact absurd trivial (hs i _ hold')
    · obtain ⟨rfl, rfl, -⟩ := Operation.writeDataToDisk.inj heq
      refine ⟨tag, rfl, fun data hdata => ?_⟩
      rw [hdata, Option.some_or]
    · cases heq
  · intro tag
    have hnew (k : ℕ) (tag : ProfileItemsTags)
        (hk : (saveOperations kit s.entries.length profile completion)[k]? =
          some (writeOperation (encoding kit profile tag) tag, [])) :
        contents t.env.disk tag = (encoding kit profile tag).or (contents s.env.disk tag) ∨
          ∃ (i : ℕ) (data : Data) (success finished : Bool), base ≤ i ∧
            t.progress[i]? = some (.writeDataToDisk (some data) tag.rawValue success, finished) ∧
            (finished = false ∨ success = false) := by
      cases hencoding : encoding kit profile tag with
      | none => exact Or.inl rfl
      | some data =>
        rw [hencoding] at hk
        exact Or.inr ⟨_, data, true, false, Nat.le_trans hbase (Nat.le_add_right _ _),
          OperationQueue.progress_addOperations_new hk, Or.inl rfl⟩
    cases tag with
    | description => exact hnew 0 .description rfl
    | name => exact hnew 1 .name rfl
    | avatar => exact hnew 2 .avatar rfl

theorem progress_of_executing (hx : s.entries[i]? = some x) (hexecuting : x.phase = .executing) :
    s.progress[i]? = some (x.op, false) := by
  rw [← OperationQueue.Entry.not_finished_of_executing hexecuting]
  exact OperationQueue.progress_of_entry hx

/-- A file that a write does not bring to the goal still misses it, or has another
write to come. -/
theorem write_reached (hs : Writing goal base s) (hx : s.entries[i]? = some x)
    (hexecuting : x.phase = .executing) (hcancelled : x.isCancelled = false) {d : Option Data}
    {f : String} {success : Bool} (hop : x.op = .writeDataToDisk d f success)
    (tag : ProfileItemsTags) :
    contents (ran kit s i x access).env.disk tag = goal tag ∨
      ∃ (j : ℕ) (data : Data) (success finished : Bool), base ≤ j ∧
        (ran kit s i x access).progress[j]? =
          some (.writeDataToDisk (some data) tag.rawValue success, finished) ∧
        (finished = false ∨ success = false) := by
  have hlive := progress_of_executing hx hexecuting
  rw [hop] at hlive
  obtain ⟨aim, rfl, hgoal⟩ := hs.aimed i d f success hlive
  have hmain : main kit FileUtils s.entries i x access s.env = _ := main_write hcancelled hop
  have hdisk : (ran kit s i x access).env.disk =
      (FileUtils.save d aim.rawValue access s.env.disk).2 :=
    congrArg (fun out => out.env.disk) hmain
  have hself : (ran kit s i x access).progress[i]? = some (.writeDataToDisk d aim.rawValue
      (FileUtils.save d aim.rawValue access s.env.disk).1, true) := by
    rw [ran, OperationQueue.progress_finish_self hx, hmain]
  have hother {j : ℕ} {p : Operation × Bool} (hp : s.progress[j]? = some p) (hji : j ≠ i) :
      (ran kit s i x access).progress[j]? = some p :=
    OperationQueue.progress_finish_of_ne hp hji _
  rw [hdisk]
  by_cases htag : tag = aim ∧ d ≠ none
  · obtain ⟨rfl, hdata⟩ := htag
    obtain ⟨data, rfl⟩ := Option.ne_none_iff_exists'.mp hdata
    cases access with
    | succeeds =>
      left
      rw [FileUtils.save, contents_update, Function.update_self]
      exact (hgoal data rfl).symm
    | fails left' => exact Or.inr ⟨i, data, false, true, hs.recent i _ hlive, hself, Or.inr rfl⟩
  · have hsame : contents (FileUtils.save d aim.rawValue access s.env.disk).2 tag =
        contents s.env.disk tag := by
      cases d with
      | none => rfl
      | some data =>
        have hne : tag ≠ aim := fun heq => htag ⟨heq, Option.some_ne_none data⟩
        cases access <;> rw [FileUtils.save, contents_update, Function.update_of_ne hne]
    rw [hsame]
    rcases hs.reached tag with hthere | ⟨j, data, success', finished, hbase, hwrite, hmissing⟩
    · exact Or.inl hthere
    · have hji : j ≠ i := by
        rintro rfl
        rw [hlive, Option.some.injEq, Prod.mk.injEq, Operation.writeDataToDisk.injEq] at hwrite
        obtain ⟨⟨rfl, hraw, -⟩, -⟩ := hwrite
        exact htag ⟨(rawValue_inj.mp hraw).symm, Option.some_ne_none data⟩
      exact Or.inr ⟨j, data, success', finished, hbase, hother hwrite hji, hmissing⟩

/-- Running a main keeps the goal, unless it puts further writes on the queue. -/
theorem main_writing (hs : Writing goal base s) (hx : s.entries[i]? = some x)
    (hexecuting : x.phase = .executing) (hcancelled : x.isCancelled = false)
    (hadded : ∀ a ∈ (main kit FileUtils s.entries i x access s.env).added, ¬ IsWrite a.1)
    (hbase : base ≤ s.entries.length) : Writing goal base (ran kit s i x access) := by
  constructor
  · intro j op hop
    rcases OperationQueue.progress_finish_cases hop with
      ⟨-, -, hfinished⟩ | ⟨-, hold⟩ | ⟨-, hge, -⟩
    · cases hfinished
    · exact hs.recent j op hold
    · exact Nat.le_trans hbase hge
  · intro j d f success hop
    rcases OperationQueue.progress_finish_cases hop with
      ⟨-, -, hfinished⟩ | ⟨-, hold⟩ | ⟨-, -, a, ha, heq⟩
    · cases hfinished
    · exact hs.aimed j d f success hold
    · exact absurd (heq ▸ trivial) (hadded a ha)
  · intro tag
    by_cases hwrite : IsWrite x.op
    · obtain ⟨d, f, success, hop⟩ := isWrite_iff.mp hwrite
      exact write_reached hs hx hexecuting hcancelled hop tag
    · have hdisk : (ran kit s i x access).env.disk = s.env.disk := main_disk hwrite
      rw [hdisk]
      rcases hs.reached tag with hthere | ⟨j, data, success, finished, hj, hmissing, hstill⟩
      · exact Or.inl hthere
      · have hji : j ≠ i := by
          rintro rfl
          rw [progress_of_executing hx hexecuting, Option.some.injEq, Prod.mk.injEq] at hmissing
          exact hwrite (isWrite_iff.mpr ⟨_, _, _, hmissing.1⟩)
        exact Or.inr ⟨j, data, success, finished, hj,
          OperationQueue.progress_finish_of_ne hmissing hji _, hstill⟩

theorem read_loads (completion : ReadCompletion) (tag : ProfileItemsTags) :
    (call s (readOperations s.entries.length completion)).progress[loadAt s.entries.length
      (s.entries.length + 1) (s.entries.length + 2) tag]? =
        some (.loadDataFromDisk tag.rawValue none, false) := by
  have hnew (k : ℕ) (hk : (readOperations s.entries.length completion)[k]? =
      some (loadOperation tag, [])) :
      (call s (readOperations s.entries.length completion)).progress[s.entries.length + k]? =
        some (loadOperation tag, false) :=
    OperationQueue.progress_addOperations_new hk
  cases tag with
  | name => exact hnew 0 rfl
  | description => exact hnew 1 rfl
  | avatar => exact hnew 2 rfl

/-- A read aims at what the files hold when it is made. -/
theorem read_reading (completion : ReadCompletion) :
    Reading failing (contents s.env.disk)
      (loadAt s.entries.length (s.entries.length + 1) (s.entries.length + 2))
      (call s (readOperations s.entries.length completion)) := by
  intro tag
  refine ⟨none, false, read_loads completion tag, fun _ => rfl, ?_⟩
  intro h
  cases h

theorem call_reading (hs : Reading failing src place s) (operations : List (Operation × List ℕ)) :
    Reading failing src place (call s operations) := by
  intro tag
  obtain ⟨data, finished, hload, hunread, hread⟩ := hs tag
  exact ⟨data, finished, OperationQueue.progress_addOperations_old hload, hunread, hread⟩

/-- Running a main keeps what a read finds, unless it writes before the loads have run. -/
theorem main_reading (hs : Reading failing src place s) (hx : s.entries[i]? = some x)
    (hexecuting : x.phase = .executing) (hcancelled : x.isCancelled = false)
    (haccess : IsLoad x.op → failing ∨ access = .succeeds)
    (hwrite : IsWrite x.op → Settled IsLoad s) :
    Reading failing src place (ran kit s i x access) := by
  have hlive := progress_of_executing hx hexecuting
  intro tag
  obtain ⟨data, finished, hload, hunread, hread⟩ := hs tag
  by_cases hi : place tag = i
  · rw [hi, hlive, Option.some.injEq, Prod.mk.injEq] at hload
    obtain ⟨hop, rfl⟩ := hload
    have hmain : main kit FileUtils s.entries i x access s.env = _ := main_load hcancelled hop
    have hself : (ran kit s i x access).progress[place tag]? = some
        (.loadDataFromDisk tag.rawValue (FileUtils.read tag.rawValue access s.env.disk), true) := by
      rw [hi, ran, OperationQueue.progress_finish_self hx, hmain]
    refine ⟨_, true, hself, fun h => absurd h (by decide), fun _ => ?_⟩
    have hsrc : src tag = s.env.disk tag.rawValue := by rw [← hunread rfl, contents]
    cases access with
    | succeeds => exact Or.inl hsrc.symm
    | fails left' =>
      rcases haccess (hop ▸ trivial) with hfailing | hsucceeds
      · exact Or.inr ⟨hfailing, rfl⟩
      · cases hsucceeds
  · refine ⟨data, finished, OperationQueue.progress_finish_of_ne hload hi _, ?_, hread⟩
    intro hfinished
    have hnot : ¬ IsWrite x.op := by
      intro hop
      rw [hfinished] at hload
      exact hwrite hop (place tag) _ hload trivial
    have hdisk : (ran kit s i x access).env.disk = s.env.disk := main_disk hnot
    rw [hdisk]
    exact hunread hfinished

/-- Once its loads have finished, a read has the contents it aimed at. -/
theorem dataAt_of_reading (hs : Reading failing src place s)
    (hfinished : ∀ tag, s.isFinishedAt (place tag)) (tag : ProfileItemsTags) :
    dataAt s.entries (place tag) = src tag ∨ failing ∧ dataAt s.entries (place tag) = none := by
  obtain ⟨data, finished, hload, -, hread⟩ := hs tag
  obtain ⟨x, hx, hop, rfl⟩ := OperationQueue.entry_of_progress hload
  obtain ⟨y, hy, hdone⟩ := OperationQueue.isFinishedAt_iff.mp (hfinished tag)
  obtain rfl : x = y := Option.some.inj (hx.symm.trans hy)
  have hdata : dataAt s.entries (place tag) = data := by
    rw [dataAt, hx, Option.map_some, hop]
  rw [hdata]
  exact hread hdone

/-- The operations at the places run one after the other. -/
def runThrough (places : List ℕ) : List (Event Image Access) :=
  places.flatMap fun i => [.operation (.start i), .operation (.main i .succeeds)]

theorem mem_runThrough {places : List ℕ} {e : Event Image Access}
    (he : e ∈ runThrough places) :
    ∃ i, e = .operation (.start i) ∨ e = .operation (.main i .succeeds) := by
  obtain ⟨i, -, hi⟩ := List.mem_flatMap.mp he
  simp only [List.mem_cons, List.not_mem_nil, or_false] at hi
  exact ⟨i, hi⟩

end TinkoffChat.ProfileTransfers

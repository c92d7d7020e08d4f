import TinkoffChat.ProfileTransfers

/-!
Where the parts of a profile come from. Nothing orders the operations of one
call against those of another, so two saves may each leave some of the files.
Each part is always one that was saved, or was there from the start; all three
come from one profile when no save overlaps another call.
-/
namespace TinkoffChat.ProfileMixtures

open PartialRuns ProfileFiles OperationProfileManager ProfileTransfers

variable {Image : Type*}

/-- Calls of save and read without cancellation, whose data are all there and are written. -/
def Smooth (kit : UIKit Image) (s : ProfileQueue Image) : Event Image Access → Prop
  | .save profile => ∀ tag, encoding kit profile tag ≠ none
  | .read => True
  | .readProfile => False
  | .operation (.cancel _) => False
  | .operation (.start _) => True
  | .operation (.main i access) =>
    ∀ x, s.entries[i]? = some x → IsWrite x.op → access = .succeeds

def IsSave : Operation → Prop
  | .writeDataToDisk _ _ _ => True
  | .writeProfile _ _ => True
  | _ => False

/-- No save overlaps another call: it is made when every operation has finished, and a
read when those of the saves have. -/
def Apart (s : ProfileQueue Image) : Event Image Access → Prop
  | .save _ => s.Drained
  | .read => Settled IsSave s
  | _ => True

/-- The profiles that reads deliver are made of contents that are allowed. -/
def Delivered (kit : UIKit Image) (allowed : Contents → Prop) (s : ProfileQueue Image) : Prop :=
  ∀ c q, (c, .read (some q)) ∈ s.env.answers → ∃ src, allowed src ∧ profileOf kit src = some q

/-- The initial contents, or those that one of the saves makes. -/
def Source (kit : UIKit Image) (disk : Files) (es : List (Event Image Access)) (src : Contents) :
    Prop :=
  src = contents disk ∨ ∃ profile, .save profile ∈ es ∧ src = encoding kit profile

/-- What the file holds in one of the sources. -/
def Piece (kit : UIKit Image) (disk : Files) (es : List (Event Image Access))
    (tag : ProfileItemsTags) (d : Option Data) : Prop :=
  ∃ whole, Source kit disk es whole ∧ d = whole tag

/-- Each file by itself holds what it held at first, or what one of the saves makes. -/
def Patchwork (kit : UIKit Image) (disk : Files) (es : List (Event Image Access))
    (src : Contents) : Prop :=
  ∀ tag, Piece kit disk es tag (src tag)

/-- What the last save makes, or the contents at first. -/
def lastSaved (kit : UIKit Image) (src : Contents) : List (Event Image Access) → Contents
  | [] => src
  | .save profile :: es => lastSaved kit (encoding kit profile) es
  | _ :: es => lastSaved kit src es

/-- A queue of saves and reads without cancelled operations. -/
structure Plain (s : ProfileQueue Image) : Prop where
  calm : s.Calm
  ordered : Ordered s
  callers : ∀ (i : ℕ) n d a completion finished,
    s.progress[i]? = some (.readProfile n d a completion, finished) →
      ∃ call, completion = .caller call

variable {kit : UIKit Image} {s t : ProfileQueue Image} {e : Event Image Access}

theorem main_added {i : ℕ} {x : Entry} {access : Access} (hs : Plain s)
    (hx : s.entries[i]? = some x) :
    (main kit FileUtils s.entries i x access s.env).added = [] := by
  by_cases hread : ∃ n d a completion, x.op = .readProfile n d a completion
  · obtain ⟨n, d, a, completion, hop⟩ := hread
    obtain ⟨call, rfl⟩ := hs.callers i n d a completion x.isFinished
      (hop ▸ OperationQueue.progress_of_entry hx)
    simp only [main, hop]
    split <;> rfl
  · exact main_added_nil fun n d a completion hop => hread ⟨n, d, a, completion, hop⟩

theorem not_isCancel {event : OperationQueue.Event Access}
    (he : Smooth kit s (.operation event)) : ¬ event.IsCancel := by
  intro hcancel
  cases event with
  | cancel i => exact he
  | start i => exact hcancel
  | main i access => exact hcancel

/-- What a smooth step does: a call, a start that changes no progress, or a main. -/
theorem smooth_step_cases (hs : Plain s) (he : Smooth kit s e)
    (h : step kit FileUtils s e = some t) :
    (∃ profile, e = .save profile ∧ (∀ tag, encoding kit profile tag ≠ none) ∧
      t = call s (saveOperations kit s.entries.length profile (.caller s.env.calls))) ∨
    (e = .read ∧ t = call s (readOperations s.entries.length (.caller s.env.calls))) ∨
    ((∃ event, e = .operation event) ∧ t.progress = s.progress ∧ t.env = s.env) ∨
    ∃ i x access, e = .operation (.main i access) ∧ s.entries[i]? = some x ∧
      x.phase = .executing ∧ x.isCancelled = false ∧ (IsWrite x.op → access = .succeeds) ∧
      t = ran kit s i x access := by
  cases e with
  | save profile =>
    obtain rfl := Option.some.inj h
    exact Or.inl ⟨profile, rfl, he, rfl⟩
  | read =>
    obtain rfl := Option.some.inj h
    exact Or.inr (Or.inl ⟨rfl, rfl⟩)
  | readProfile => exact absurd he id
  | operation event =>
    rcases OperationQueue.calm_step_cases hs.calm (not_isCancel he) h with
      ⟨i, x, -, -, rfl, hprogress⟩ | ⟨i, x, access, rfl, hx, hexecuting, hcancelled, rfl⟩
    · exact Or.inr (Or.inr (Or.inl ⟨⟨event, rfl⟩, hprogress, rfl⟩))
    · exact Or.inr (Or.inr (Or.inr ⟨i, x, access, rfl, hx, hexecuting, hcancelled, he x hx, rfl⟩))

/-- What is on the queue after a main was there before, or is the operation that ran. -/
theorem progress_ran_cases {i j : ℕ} {x : Entry} {access : Access} (hs : Plain s)
    (hx : s.entries[i]? = some x) {op : Operation} {finished : Bool}
    (h : (ran kit s i x access).progress[j]? = some (op, finished)) :
    (j = i ∧ op = (main kit FileUtils s.entries i x access s.env).op ∧ finished = true) ∨
      (j ≠ i ∧ s.progress[j]? = some (op, finished)) := by
  rcases OperationQueue.progress_finish_cases h with hself | hother | ⟨-, -, a, ha, -⟩
  · exact Or.inl hself
  · exact Or.inr hother
  · rw [main_added hs hx] at ha
    cases ha

theorem read_before {i j : ℕ} {x : Entry} {access : Access} (hs : Plain s)
    (hx : s.entries[i]? = some x) {n d a : ℕ} {completion : ReadCompletion} {finished : Bool}
    (h : (ran kit s i x access).progress[j]? = some (.readProfile n d a completion, finished)) :
    ∃ before, s.progress[j]? = some (.readProfile n d a completion, before) := by
  rcases progress_ran_cases hs hx h with ⟨rfl, heq, -⟩ | ⟨-, hold⟩
  · have hcreated := created_main kit FileUtils s.entries j x access s.env
    rw [← heq] at hcreated
    refine ⟨x.isFinished, (OperationQueue.progress_of_entry hx).trans ?_⟩
    cases hop : x.op <;> rw [hop] at hcreated <;> cases hcreated
    rfl
  · exact ⟨finished, hold⟩

theorem write_before {i j : ℕ} {x : Entry} {access : Access} (hs : Plain s)
    (hx : s.entries[i]? = some x) {d : Option Data} {f : String} {success finished : Bool}
    (h : (ran kit s i x access).progress[j]? = some (.writeDataToDisk d f success, finished)) :
    ∃ success' before, s.progress[j]? = some (.writeDataToDisk d f success', before) := by
  rcases progress_ran_cases hs hx h with ⟨rfl, heq, -⟩ | ⟨-, hold⟩
  · have hcreated := created_main kit FileUtils s.entries j x access s.env
    rw [← heq] at hcreated
    cases hop : x.op with
    | writeDataToDisk d' f' success' =>
      rw [hop] at hcreated
      cases hcreated
      exact ⟨success', x.isFinished, hop ▸ OperationQueue.progress_of_entry hx⟩
    | loadDataFromDisk f' data => rw [hop] at hcreated; cases hcreated
    | writeProfile operations completion => rw [hop] at hcreated; cases hcreated
    | readProfile n d a completion => rw [hop] at hcreated; cases hcreated
  · exact ⟨success, finished, hold⟩

theorem step_plain (hs : Plain s) (he : Smooth kit s e) (h : step kit FileUtils s e = some t) :
    Plain t := by
  have hordered := step_ordered hs.ordered h
  rcases smooth_step_cases hs he h with
    ⟨profile, rfl, -, rfl⟩ | ⟨rfl, rfl⟩ | ⟨⟨event, rfl⟩, hprogress, -⟩ |
      ⟨i, x, access, rfl, hx, -, -, -, rfl⟩
  · refine ⟨OperationQueue.addOperations_calm hs.calm _, hordered, ?_⟩
    intro i n d a completion finished hop
    rcases progress_save_cases hop with hold | ⟨-, ⟨tag, heq⟩ | heq⟩
    · exact hs.callers i n d a completion finished hold
    · cases heq
    · cases heq
  · refine ⟨OperationQueue.addOperations_calm hs.calm _, hordered, ?_⟩
    intro i n d a completion finished hop
    rcases progress_read_cases hop with hold | ⟨-, ⟨tag, heq⟩ | heq⟩
    · exact hs.callers i n d a completion finished hold
    · cases heq
    · cases heq
      exact ⟨_, rfl⟩
  · rw [step_operation] at h
    refine ⟨OperationQueue.step_calm hs.calm (not_isCancel he) h, hordered, ?_⟩
    rw [hprogress]
    exact hs.callers
  · rw [step_operation] at h
    refine ⟨OperationQueue.step_calm hs.calm (not_isCancel he) h, hordered, ?_⟩
    intro j n d a completion finished hop
    obtain ⟨before, hbefore⟩ := read_before hs hx hop
    exact hs.callers j n d a completion before hbefore

theorem main_delivers {i : ℕ} {x : Entry} {access : Access} {c : ℕ} {q : ProfileViewModel Image}
    (h : (c, .read (some q)) ∈ (ran kit s i x access).env.answers) :
    (c, .read (some q)) ∈ s.env.answers ∨
      ∃ n d a completion, x.op = .readProfile n d a completion ∧
        profileOf kit (fun tag => dataAt s.entries (loadAt n d a tag)) = some q := by
  change (c, .read (some q)) ∈ (main kit FileUtils s.entries i x access s.env).env.answers at h
  obtain ⟨op, dependencies, phase, isCancelled⟩ := x
  cases op with
  | loadDataFromDisk f data => cases isCancelled <;> exact Or.inl h
  | writeDataToDisk data f success => cases isCancelled <;> exact Or.inl h
  | writeProfile operations completion =>
    simp only [main] at h
    cases completion with
    | caller call =>
      rcases List.mem_append.mp h with hold | hnew
      · exact Or.inl hold
      · rw [List.mem_singleton] at hnew
        cases hnew
    | saveDefault call =>
      rcases List.mem_append.mp h with hold | hnew
      · exact Or.inl hold
      · rw [List.mem_singleton] at hnew
        cases hnew
  | readProfile n d a completion =>
    cases isCancelled with
    | true => exact Or.inl h
    | false =>
      simp only [main, Bool.false_eq_true, if_false] at h
      cases completion with
      | caller call =>
        rcases List.mem_append.mp h with hold | hnew
        · exact Or.inl hold
        · rw [List.mem_singleton, Prod.mk.injEq, Answer.read.injEq] at hnew
          exact Or.inr ⟨n, d, a, _, rfl, hnew.2.symm⟩
      | userDataStore call =>
        cases hprofile : profileOf kit fun tag => dataAt s.entries (loadAt n d a tag) with
        | none =>
          rw [hprofile] at h
          exact Or.inl h
        | some profile =>
          rw [hprofile] at h
          rcases List.mem_append.mp h with hold | hnew
          · exact Or.inl hold
          · rw [List.mem_singleton] at hnew
            cases hnew

/-- When a read parses its data, its loads have finished. -/
theorem loads_finished {i : ℕ} {x : Entry} (hs : Plain s) (hx : s.entries[i]? = some x)
    (hexecuting : x.phase = .executing) {n d a : ℕ} {completion : ReadCompletion}
    (hop : x.op = .readProfile n d a completion) (tag : ProfileItemsTags) :
    s.isFinishedAt (loadAt n d a tag) := by
  apply operands_finished hs.ordered hx hexecuting
  rw [hop]
  cases tag <;> simp [operands, loadAt]

/-- Files, data to write and data loaded are all pieces. -/
structure Pieces (piece : ProfileItemsTags → Option Data → Prop) (s : ProfileQueue Image) :
    Prop where
  files : ∀ tag, piece tag (contents s.env.disk tag)
  writes : ∀ (i : ℕ) d f success finished,
    s.progress[i]? = some (.writeDataToDisk d f success, finished) →
      ∃ tag : ProfileItemsTags, f = tag.rawValue ∧ piece tag d
  loads : ∀ (i : ℕ) n d a completion finished,
    s.progress[i]? = some (.readProfile n d a completion, finished) →
      ∀ tag : ProfileItemsTags, ∃ data finished,
        s.progress[loadAt n d a tag]? = some (.loadDataFromDisk tag.rawValue data, finished) ∧
          (data = none ∨ piece tag data)

variable {piece : ProfileItemsTags → Option Data → Prop}

theorem save_pieces (hs : Pieces piece s) {profile : ProfileViewModel Image}
    (hprofile : ∀ tag, piece tag (encoding kit profile tag)) (completion : SaveCompletion) :
    Pieces piece (call s (saveOperations kit s.entries.length profile completion)) := by
  refine ⟨hs.files, ?_, ?_⟩
  · intro i d f success finished hop
    rcases progress_save_cases hop with hold | ⟨-, ⟨tag, heq⟩ | heq⟩
    · exact hs.writes i d f success finished hold
    · obtain ⟨rfl, rfl, -⟩ := Operation.writeDataToDisk.inj heq
      exact ⟨tag, rfl, hprofile tag⟩
    · cases heq
  · intro i n d a readCompletion finished hop
    rcases progress_save_cases hop with hold | ⟨-, ⟨tag, heq⟩ | heq⟩
    · intro tag
      obtain ⟨data, finished', hload, hdata⟩ := hs.loads i n d a _ finished hold tag
      exact ⟨data, finished', OperationQueue.progress_addOperations_old hload, hdata⟩
    · cases heq
    · cases heq

theorem read_pieces (hs : Pieces piece s) (completion : ReadCompletion) :
    Pieces piece (call s (readOperations s.entries.length completion)) := by
  refine ⟨hs.files, ?_, ?_⟩
  · intro i d f success finished hop
    rcases progress_read_cases hop with hold | ⟨-, ⟨tag, heq⟩ | heq⟩
    · exact hs.writes i d f success finished hold
    · cases heq
    · cases heq
  · intro i n d a readCompletion finished hop
    rcases progress_read_cases hop with hold | ⟨-, ⟨tag, heq⟩ | heq⟩
    · intro tag
      obtain ⟨data, finished', hload, hdata⟩ := hs.loads i n d a _ finished hold tag
      exact ⟨data, finished', OperationQueue.progress_addOperations_old hload, hdata⟩
    · cases heq
    · obtain ⟨rfl, rfl, rfl, -⟩ := Operation.readProfile.inj heq
      exact fun tag => ⟨none, false, read_loads completion tag, Or.inl rfl⟩

theorem ran_pieces {i : ℕ} {x : Entry} {access : Access} (hs : Plain s) (hp : Pieces piece s)
    (hx : s.entries[i]? = some x) (hcancelled : x.isCancelled = false)
    (haccess : IsWrite x.op → access = .succeeds) : Pieces piece (ran kit s i x access) := by
  refine ⟨?_, ?_, ?_⟩
  · intro tag
    by_cases hwrite : IsWrite x.op
    · obtain ⟨d, f, success, hop⟩ := isWrite_iff.mp hwrite
      obtain rfl := haccess hwrite
      have hmain : main kit FileUtils s.entries i x .succeeds s.env = _ := main_write hcancelled hop
      have hdisk : (ran kit s i x .succeeds).env.disk =
          (FileUtils.save d f .succeeds s.env.disk).2 := congrArg (fun out => out.env.disk) hmain
      obtain ⟨aim, rfl, hd⟩ := hp.writes i d f success x.isFinished
        (hop ▸ OperationQueue.progress_of_entry hx)
      rw [hdisk]
      cases d with
      | none => exact hp.files tag
      | some data =>
        rw [FileUtils.save, contents_update]
        by_cases htag : tag = aim
        · subst htag
          rw [Function.update_self]
          exact hd
        · rw [Function.update_of_ne htag]
          exact hp.files tag
    · have hdisk : (ran kit s i x access).env.disk = s.env.disk := main_disk hwrite
      rw [hdisk]
      exact hp.files tag
  · intro j d f success finished hop
    obtain ⟨success', before, hbefore⟩ := write_before hs hx hop
    exact hp.writes j d f success' before hbefore
  · intro j n d a completion finished hop tag
    obtain ⟨before, hbefore⟩ := read_before hs hx hop
    obtain ⟨data, finished', hload, hdata⟩ := hp.loads j n d a completion before hbefore tag
    by_cases hi : loadAt n d a tag = i
    · subst hi
      have hxload : x.op = .loadDataFromDisk tag.rawValue data := by
        rw [OperationQueue.progress_of_entry hx, Option.some.injEq, Prod.mk.injEq] at hload
        exact hload.1
      have hmain : main kit FileUtils s.entries (loadAt n d a tag) x access s.env = _ :=
        main_load hcancelled hxload
      refine ⟨FileUtils.read tag.rawValue access s.env.disk, true, ?_, ?_⟩
      · rw [ran, OperationQueue.progress_finish_self hx, hmain]
      · cases access with
        | succeeds => exact Or.inr (hp.files tag)
        | fails left' => exact Or.inl rfl
    · exact ⟨data, finished', OperationQueue.progress_finish_of_ne hload hi _, hdata⟩

/-- A profile that a read delivers is put together from pieces. -/
theorem read_piecewise {i : ℕ} {x : Entry} (hp : Pieces piece s)
    (hx : s.entries[i]? = some x) {n d a : ℕ} {completion : ReadCompletion}
    (hop : x.op = .readProfile n d a completion) {q : ProfileViewModel Image}
    (hq : profileOf kit (fun tag => dataAt s.entries (loadAt n d a tag)) = some q) :
    ∃ src : Contents, (∀ tag, piece tag (src tag)) ∧ profileOf kit src = some q := by
  refine ⟨_, fun tag => ?_, hq⟩
  obtain ⟨data, finished, hload, hdata⟩ := hp.loads i n d a completion x.isFinished
    (hop ▸ OperationQueue.progress_of_entry hx) tag
  obtain ⟨y, hy, hyop, -⟩ := OperationQueue.entry_of_progress hload
  have hfound : dataAt s.entries (loadAt n d a tag) = data := by
    rw [dataAt, hy, Option.map_some, hyop]
  rcases hdata with hnone | hpiece
  · exact absurd (hfound.trans hnone) (profileOf_present hq tag)
  · rw [hfound]
    exact hpiece

/-- One save at a time: the files are at the contents it makes or on their way to them,
and each read has found allowed contents as a whole. -/
structure Whole (kit : UIKit Image) (allowed : Contents → Prop) (src : Contents)
    (s : ProfileQueue Image) : Prop where
  allowed_src : allowed src
  writing : Writing src 0 s
  succeeded : ∀ (i : ℕ) data f success finished,
    s.progress[i]? = some (.writeDataToDisk (some data) f success, finished) → success = true
  exclusive : Settled IsLoad s ∨ Settled IsWrite s
  reads : ∀ (i : ℕ) n d a completion finished,
    s.progress[i]? = some (.readProfile n d a completion, finished) →
      ∃ whole, allowed whole ∧ Reading True whole (loadAt n d a) s
  delivered : Delivered kit allowed s

variable {allowed : Contents → Prop} {src : Contents}

/-- Between the saves the files hold what the last one made. -/
theorem contents_of_settled (hw : Whole kit allowed src s) (hsettled : Settled IsWrite s) :
    contents s.env.disk = src := by
  apply contents_of_writing hw.writing
  intro i data f success finished _ hop
  obtain rfl := hw.succeeded i data f success finished hop
  cases finished with
  | true => exact ⟨rfl, rfl⟩
  | false => exact absurd trivial (hsettled i _ hop)

theorem save_whole (hw : Whole kit allowed src s) (hs : s.Drained)
    {profile : ProfileViewModel Image} (hfull : ∀ tag, encoding kit profile tag ≠ none)
    (hallowed : allowed (encoding kit profile)) (completion : SaveCompletion) :
    Whole kit allowed (encoding kit profile)
      (call s (saveOperations kit s.entries.length profile completion)) := by
  have hgoal : (fun tag => (encoding kit profile tag).or (contents s.env.disk tag)) =
      encoding kit profile := by
    funext tag
    obtain ⟨data, hdata⟩ := Option.ne_none_iff_exists'.mp (hfull tag)
    rw [hdata, Option.some_or]
  refine ⟨hallowed, ?_, ?_, ?_, ?_, hw.delivered⟩
  · rw [← hgoal]
    exact save_writing (settled_of_drained hs IsWrite) (fun _ _ _ => Nat.zero_le _)
      (Nat.zero_le _) profile completion
  · intro i data f success finished hop
    rcases progress_save_cases hop with hold | ⟨-, ⟨tag, heq⟩ | heq⟩
    · exact hw.succeeded i data f success finished hold
    · obtain ⟨hdata, -, rfl⟩ := Operation.writeDataToDisk.inj heq
      rw [← hdata]
      rfl
    · cases heq
  · left
    intro i op hop
    rcases progress_save_cases hop with hold | ⟨-, ⟨tag, rfl⟩ | rfl⟩
    · exact settled_of_drained hs IsLoad i op hold
    · exact id
    · exact id
  · intro i n d a readCompletion finished hop
    rcases progress_save_cases hop with hold | ⟨-, ⟨tag, heq⟩ | heq⟩
    · obtain ⟨whole, hallowed', hreading⟩ := hw.reads i n d a _ finished hold
      exact ⟨whole, hallowed', call_reading hreading _⟩
    · cases heq
    · cases heq

theorem read_whole (hw : Whole kit allowed src s) (hs : Settled IsWrite s)
    (completion : ReadCompletion) :
    Whole kit allowed src (call s (readOperations s.entries.length completion)) := by
  have hsettled : Settled IsWrite (call s (readOperations s.entries.length completion)) := by
    intro i op hop
    rcases progress_read_cases hop with hold | ⟨-, ⟨tag, rfl⟩ | rfl⟩
    · exact hs i op hold
    · exact id
    · exact id
  refine ⟨hw.allowed_src, ⟨fun _ _ _ => Nat.zero_le _, ?_, ?_⟩, ?_, Or.inr hsettled, ?_,
    hw.delivered⟩
  · intro i d f success hop
    exact absurd trivial (hsettled i _ hop)
  · intro tag
    exact Or.inl (congrFun (contents_of_settled hw hs) tag)
  · intro i data f success finished hop
    rcases progress_read_cases hop with hold | ⟨-, ⟨tag, heq⟩ | heq⟩
    · exact hw.succeeded i data f success finished hold
    · cases heq
    · cases heq
  · intro i n d a readCompletion finished hop
    rcases progress_read_cases hop with hold | ⟨-, ⟨tag, heq⟩ | heq⟩
    · obtain ⟨whole, hallowed, hreading⟩ := hw.reads i n d a _ finished hold
      exact ⟨whole, hallowed, call_reading hreading _⟩
    · cases heq
    · obtain ⟨rfl, rfl, rfl, -⟩ := Operation.readProfile.inj heq
      refine ⟨src, hw.allowed_src, ?_⟩
      rw [← contents_of_settled hw hs]
      exact read_reading completion

theorem settled_ran {kind : Operation → Prop} {i : ℕ} {x : Entry} {access : Access}
    (hs : Plain s) (hx : s.entries[i]? = some x) (hsettled : Settled kind s) :
    Settled kind (ran kit s i x access) := by
  intro j op hop
  rcases progress_ran_cases hs hx hop with ⟨-, -, hfinished⟩ | ⟨-, hold⟩
  · cases hfinished
  · exact hsettled j op hold

theorem ran_whole {i : ℕ} {x : Entry} {access : Access} (hs : Plain s)
    (hw : Whole kit allowed src s) (hx : s.entries[i]? = some x)
    (hexecuting : x.phase = .executing) (hcancelled : x.isCancelled = false)
    (haccess : IsWrite x.op → access = .succeeds) :
    Whole kit allowed src (ran kit s i x access) := by
  have hnone : ∀ a ∈ (main kit FileUtils s.entries i x access s.env).added, ¬ IsWrite a.1 := by
    rw [main_added hs hx]
    exact fun a ha => absurd ha List.not_mem_nil
  refine ⟨hw.allowed_src,
    main_writing hw.writing hx hexecuting hcancelled hnone (Nat.zero_le _), ?_, ?_, ?_, ?_⟩
  · intro j data f success finished hop
    rcases progress_ran_cases hs hx hop with ⟨rfl, heq, -⟩ | ⟨-, hold⟩
    · obtain ⟨success', before, hbefore⟩ := write_before hs hx hop
      have hxop : x.op = .writeDataToDisk (some data) f success' := by
        rw [OperationQueue.progress_of_entry hx, Option.some.injEq, Prod.mk.injEq] at hbefore
        exact hbefore.1
      obtain rfl := haccess (hxop ▸ trivial)
      rw [main_write hcancelled hxop] at heq
      exact (Operation.writeDataToDisk.inj heq).2.2
    · exact hw.succeeded j data f success finished hold
  · rcases hw.exclusive with hloads | hwrites
    · exact Or.inl (settled_ran hs hx hloads)
    · exact Or.inr (settled_ran hs hx hwrites)
  · intro j n d a completion finished hop
    obtain ⟨before, hbefore⟩ := read_before hs hx hop
    obtain ⟨whole, hallowed, hreading⟩ := hw.reads j n d a completion before hbefore
    refine ⟨whole, hallowed, main_reading hreading hx hexecuting hcancelled
      (fun _ => Or.inl trivial) fun hwrite => ?_⟩
    rcases hw.exclusive with hloads | hwrites
    · exact hloads
    · exact absurd hwrite (hwrites i x.op (progress_of_executing hx hexecuting))
  · intro c q hq
    rcases main_delivers hq with hold | ⟨n, d, a, completion, hop, hprofile⟩
    · exact hw.delivered c q hold
    · obtain ⟨whole, hallowed, hreading⟩ := hw.reads i n d a completion x.isFinished
        (hop ▸ OperationQueue.progress_of_entry hx)
      refine ⟨whole, hallowed, profileOf_of_agree (fun tag => ?_) hprofile⟩
      rcases dataAt_of_reading hreading (loads_finished hs hx hexecuting hop) tag with
        hfound | ⟨-, hnothing⟩
      · exact Or.inr hfound
      · exact Or.inl hnothing

theorem delivered_of_answers {allowed : Contents → Prop} (hs : Delivered kit allowed s)
    (h : t.env.answers = s.env.answers) : Delivered kit allowed t := by
  intro c q hq
  rw [h] at hq
  exact hs c q hq

theorem step_pieces (hs : Plain s) (hp : Pieces piece s)
    (hd : Delivered kit (fun src => ∀ tag, piece tag (src tag)) s) (he : Smooth kit s e)
    (hsave : ∀ profile, e = .save profile → ∀ tag, piece tag (encoding kit profile tag))
    (h : step kit FileUtils s e = some t) :
    Pieces piece t ∧ Delivered kit (fun src => ∀ tag, piece tag (src tag)) t := by
  rcases smooth_step_cases hs he h with
    ⟨profile, rfl, -, rfl⟩ | ⟨-, rfl⟩ | ⟨-, hprogress, henv⟩ |
      ⟨i, x, access, -, hx, hexecuting, hcancelled, haccess, rfl⟩
  · exact ⟨save_pieces hp (hsave profile rfl) _, delivered_of_answers hd rfl⟩
  · exact ⟨read_pieces hp _, delivered_of_answers hd rfl⟩
  · refine ⟨⟨?_, ?_, ?_⟩, delivered_of_answers hd (congrArg Env.answers henv)⟩
    · rw [henv]
      exact hp.files
    · rw [hprogress]
      exact hp.writes
    · rw [hprogress]
      exact hp.loads
  · refine ⟨ran_pieces hs hp hx hcancelled haccess, ?_⟩
    intro c q hq
    rcases main_delivers hq with hold | ⟨n, d, a, completion, hop, hprofile⟩
    · exact hd c q hold
    · exact read_piecewise hp hx hop hprofile

/-- A step of a serial run: a save changes what the files are on their way to. -/
theorem step_whole (hs : Plain s) (hw : Whole kit allowed src s) (he : Smooth kit s e)
    (happart : Apart s e)
    (hsave : ∀ profile, e = .save profile → allowed (encoding kit profile))
    (h : step kit FileUtils s e = some t) : Whole kit allowed (lastSaved kit src [e]) t := by
  rcases smooth_step_cases hs he h with
    ⟨profile, rfl, hfull, rfl⟩ | ⟨rfl, rfl⟩ | ⟨⟨event, rfl⟩, hprogress, henv⟩ |
      ⟨i, x, access, rfl, hx, hexecuting, hcancelled, haccess, rfl⟩
  · exact save_whole hw happart hfull (hsave profile rfl) _
  · apply read_whole hw
    intro i op hop hwrite
    obtain ⟨d, f, success, rfl⟩ := isWrite_iff.mp hwrite
    exact happart i _ hop trivial
  · have hdisk := congrArg Env.disk henv
    refine ⟨hw.allowed_src, writing_congr hw.writing hprogress hdisk, ?_, ?_, ?_,
      delivered_of_answers hw.delivered (congrArg Env.answers henv)⟩
    · rw [hprogress]
      exact hw.succeeded
    · simp only [Settled, hprogress]
      exact hw.exclusive
    · intro i n d a completion finished hop
      rw [hprogress] at hop
      obtain ⟨whole, hallowed, hreading⟩ := hw.reads i n d a completion finished hop
      exact ⟨whole, hallowed, reading_congr hreading hprogress hdisk⟩
  · exact ran_whole hs hw hx hexecuting hcancelled haccess

theorem lastSaved_cons (src : Contents) (e : Event Image Access) (es : List (Event Image Access)) :
    lastSaved kit src (e :: es) = lastSaved kit (lastSaved kit src [e]) es := by
  cases e <;> rfl

theorem run_whole {es : List (Event Image Access)} (hs : Plain s) (hw : Whole kit allowed src s)
    (hsmooth : Along (step kit FileUtils) (Smooth kit) s es)
    (happart : Along (step kit FileUtils) Apart s es)
    (hsave : ∀ profile, .save profile ∈ es → allowed (encoding kit profile))
    (h : run (step kit FileUtils) s es = some t) :
    Whole kit allowed (lastSaved kit src es) t := by
  induction es generalizing s src with
  | nil =>
    obtain rfl : s = t := Option.some.inj h
    exact hw
  | cons e es ih =>
    obtain ⟨u, hu, hrest⟩ := run_cons_eq_some.mp h
    obtain ⟨he, hsmooth⟩ := (along_cons_of_step hu).mp hsmooth
    obtain ⟨hapart, happart⟩ := (along_cons_of_step hu).mp happart
    rw [lastSaved_cons]
    apply ih (step_plain hs he hu) _ hsmooth happart _ hrest
    · apply step_whole hs hw he hapart _ hu
      rintro profile rfl
      exact hsave profile (List.mem_cons_self ..)
    · intro profile hprofile
      exact hsave profile (List.mem_cons_of_mem _ hprofile)

theorem run_pieces {es : List (Event Image Access)} (hs : Plain s) (hp : Pieces piece s)
    (hd : Delivered kit (fun src => ∀ tag, piece tag (src tag)) s)
    (hsmooth : Along (step kit FileUtils) (Smooth kit) s es)
    (hsave : ∀ profile, .save profile ∈ es → ∀ tag, piece tag (encoding kit profile tag))
    (h : run (step kit FileUtils) s es = some t) :
    Pieces piece t ∧ Delivered kit (fun src => ∀ tag, piece tag (src tag)) t := by
  have hall : ∀ e ∈ es, ∀ profile, e = .save profile →
      ∀ tag, piece tag (encoding kit profile tag) := by
    rintro e he profile rfl
    exact hsave profile he
  have hstep (u : ProfileQueue Image) (e : Event Image Access) (v : ProfileQueue Image)
      (hu : Plain u ∧ Pieces piece u ∧
        Delivered kit (fun src => ∀ tag, piece tag (src tag)) u)
      (he : Smooth kit u e ∧ ∀ profile, e = .save profile →
        ∀ tag, piece tag (encoding kit profile tag))
      (h : step kit FileUtils u e = some v) :
      Plain v ∧ Pieces piece v ∧ Delivered kit (fun src => ∀ tag, piece tag (src tag)) v :=
    ⟨step_plain hu.1 he.1 h, step_pieces hu.1 hu.2.1 hu.2.2 he.1 he.2 h⟩
  exact (run_invariant_along hstep ⟨hs, hp, hd⟩ (hsmooth.and_of_forall_mem hall) h).2

theorem empty_plain (kit : UIKit Image) (disk : Files) : Plain (State.empty kit disk) := by
  refine ⟨?_, empty_ordered kit disk, ?_⟩
  · intro i x hx
    simp [State.empty] at hx
  · intro i n d a completion finished hop
    simp [State.empty, OperationQueue.State.progress] at hop

theorem empty_pieces (kit : UIKit Image) (disk : Files)
    (hpiece : ∀ tag, piece tag (contents disk tag)) :
    Pieces piece (State.empty kit disk : ProfileQueue Image) := by
  refine ⟨hpiece, ?_, ?_⟩
  · intro i d f success finished hop
    simp [State.empty, OperationQueue.State.progress] at hop
  · intro i n d a completion finished hop
    simp [State.empty, OperationQueue.State.progress] at hop

theorem empty_whole (kit : UIKit Image) (disk : Files) (hallowed : allowed (contents disk)) :
    Whole kit allowed (contents disk) (State.empty kit disk) := by
  have hnothing {i : ℕ} {op : Operation} {finished : Bool} :
      (State.empty kit disk : ProfileQueue Image).progress[i]? ≠ some (op, finished) := by
    simp [State.empty, OperationQueue.State.progress]
  refine ⟨hallowed, ⟨?_, ?_, ?_⟩, ?_, ?_, ?_, ?_⟩
  · exact fun i op hop => absurd hop hnothing
  · exact fun i d f success hop => absurd hop hnothing
  · exact fun tag => Or.inl rfl
  · exact fun i data f success finished hop => absurd hop hnothing
  · exact Or.inl fun i op hop => absurd hop hnothing
  · exact fun i n d a completion finished hop => absurd hop hnothing
  · intro c q hq
    simp [State.empty] at hq

/-- No mixture: a delivered profile is made of the contents of one source, and once
the queue is drained so are the three files. -/
def NeverMixed (kit : UIKit Image) (disk : Files) (es : List (Event Image Access))
    (s : ProfileQueue Image) : Prop :=
  Delivered kit (Source kit disk es) s ∧ (s.Drained → Source kit disk es (contents s.env.disk))

/-- Each file, and each part of a delivered profile, comes from a save or the initial
contents; if no save overlaps another call, the parts of a profile come from the same
one, and the files end up with what the last save makes. -/
theorem delivered_whole (kit : UIKit Image) (disk : Files) {es : List (Event Image Access)}
    {s : ProfileQueue Image} (h : run (step kit FileUtils) (State.empty kit disk) es = some s)
    (hsmooth : Along (step kit FileUtils) (Smooth kit) (State.empty kit disk) es) :
    Patchwork kit disk es (contents s.env.disk) ∧ Delivered kit (Patchwork kit disk es) s ∧
      (Along (step kit FileUtils) Apart (State.empty kit disk) es →
        Delivered kit (Source kit disk es) s ∧
          (s.Drained → contents s.env.disk = lastSaved kit (contents disk) es)) := by
  have hsource : ∀ profile, .save profile ∈ es → Source kit disk es (encoding kit profile) :=
    fun profile hprofile => Or.inr ⟨profile, hprofile, rfl⟩
  have hnone {allowed : Contents → Prop} :
      Delivered kit allowed (State.empty kit disk : ProfileQueue Image) := by
    intro c q hq
    simp [State.empty] at hq
  have hpieces : Pieces (Piece kit disk es) (State.empty kit disk : ProfileQueue Image) :=
    empty_pieces kit disk fun tag => ⟨contents disk, Or.inl rfl, rfl⟩
  obtain ⟨hfinal, hdelivered⟩ := run_pieces (empty_plain kit disk) hpieces hnone hsmooth
    (fun profile hprofile tag => ⟨_, hsource profile hprofile, rfl⟩) h
  refine ⟨hfinal.files, hdelivered, fun happart => ?_⟩
  have hw := run_whole (empty_plain kit disk) (empty_whole kit disk (Or.inl rfl)) hsmooth
    happart hsource h
  exact ⟨hw.delivered, fun hdrained =>
    contents_of_settled hw (settled_of_drained hdrained IsWrite)⟩

def anna : ProfileViewModel (Option Data) := ⟨"Anna", "iOS", some .empty⟩

def boris : ProfileViewModel (Option Data) := ⟨"Boris", "Android", some .empty⟩

theorem anna_full (tag : ProfileItemsTags) : encoding plainKit anna tag ≠ none := by
  cases tag <;> exact Option.some_ne_none _

theorem boris_full (tag : ProfileItemsTags) : encoding plainKit boris tag ≠ none := by
  cases tag <;> exact Option.some_ne_none _

theorem runThrough_smooth {places : List ℕ} {e : Event (Option Data) Access}
    (he : e ∈ runThrough places) (s : ProfileQueue (Option Data)) : Smooth plainKit s e := by
  obtain ⟨i, rfl | rfl⟩ := mem_runThrough he
  · trivial
  · exact fun _ _ _ => rfl

theorem delivered_whole_anna :
    ∃ s, run (step plainKit FileUtils) (State.empty plainKit fun _ => none)
        (.save anna :: runThrough [1, 0, 2, 3]) = some s ∧
      contents s.env.disk = encoding plainKit anna := by
  obtain ⟨s, hrun⟩ : ∃ s, run (step plainKit FileUtils) (State.empty plainKit fun _ => none)
      (.save anna :: runThrough [1, 0, 2, 3]) = some s := ⟨_, rfl⟩
  have hdrained : s.Drained := by
    obtain rfl := Option.some.inj hrun
    unfold OperationQueue.State.Drained
    decide
  have hsmooth : Along (step plainKit FileUtils) (Smooth plainKit)
      (State.empty plainKit fun _ => none) (.save anna :: runThrough [1, 0, 2, 3]) :=
    ⟨anna_full, fun t _ => along_of_forall_mem (fun _ he u => runThrough_smooth he u) t⟩
  have happart : Along (step plainKit FileUtils) Apart
      (State.empty plainKit fun _ => none) (.save anna :: runThrough [1, 0, 2, 3]) := by
    refine ⟨fun x hx => absurd hx List.not_mem_nil, fun t _ => along_of_forall_mem ?_ t⟩
    intro e he u
    obtain ⟨i, rfl | rfl⟩ := mem_runThrough he <;> trivial
  obtain ⟨-, -, hserial⟩ := delivered_whole plainKit _ hrun hsmooth
  exact ⟨s, hrun, (hserial happart).2 hdrained⟩

/-- Two saves at once may leave the name of one profile and the description of the other. -/
theorem not_neverMixed :
    ¬ ∀ (es : List (Event (Option Data) Access)) (s : ProfileQueue (Option Data)),
      run (step plainKit FileUtils) (State.empty plainKit fun _ => none) es = some s →
        Along (step plainKit FileUtils) (Smooth plainKit) (State.empty plainKit fun _ => none) es →
          NeverMixed plainKit (fun _ => none) es s := by
  intro h
  obtain ⟨s, hrun⟩ : ∃ s, run (step plainKit FileUtils) (State.empty plainKit fun _ => none)
      (.save anna :: .save boris :: runThrough [0, 4, 5, 1, 2, 6, 3, 7]) = some s := ⟨_, rfl⟩
  obtain ⟨hdrained, hname, hdescription⟩ : s.Drained ∧
      contents s.env.disk .name = data "Anna" ∧
        contents s.env.disk .description = data "Android" := by
    obtain rfl := Option.some.inj hrun
    refine ⟨?_, rfl, rfl⟩
    unfold OperationQueue.State.Drained
    decide
  have hsmooth : Along (step plainKit FileUtils) (Smooth plainKit)
      (State.empty plainKit fun _ => none)
      (.save anna :: .save boris :: runThrough [0, 4, 5, 1, 2, 6, 3, 7]) :=
    ⟨anna_full, fun t _ => ⟨boris_full, fun u _ =>
      along_of_forall_mem (fun _ he v => runThrough_smooth he v) u⟩⟩
  rcases (h _ s hrun hsmooth).2 hdrained with hinitial | ⟨profile, hprofile, heq⟩
  · rw [hinitial] at hname
    cases hname
  · rw [heq] at hname hdescription
    rcases List.mem_cons.mp hprofile with hanna | hrest
    · obtain rfl := Event.save.inj hanna
      exact absurd hdescription (by decide)
    · rcases List.mem_cons.mp hrest with hboris | hthrough
      · obtain rfl := Event.save.inj hboris
        exact absurd hname (by decide)
      · obtain ⟨i, hevent | hevent⟩ := mem_runThrough hthrough <;> cases hevent

end TinkoffChat.ProfileMixtures

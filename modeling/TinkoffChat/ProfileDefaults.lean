import TinkoffChat.GCDProfileManager

/-!
What readProfile does to the files. When the parse makes no profile the default
one is saved, whether the files hold none or a load has failed, and the save
puts its own data into files that were there. How the write to each file goes is
given once for the file.
-/
namespace TinkoffChat.ProfileDefaults

open PartialRuns ProfileFiles OperationProfileManager ProfileTransfers ProfileLoads

variable {Image : Type*} {kit : UIKit Image} {writes : ProfileItemsTags → Access}
  {s t u : ProfileQueue Image} {e : Event Image Access}

/-- Steps of the queue alone; the write to each file goes as given, a load may fail. -/
def Steady (writes : ProfileItemsTags → Access) (s : ProfileQueue Image) :
    Event Image Access → Prop
  | .operation (.start _) => True
  | .operation (.main i access) => ∀ x d (tag : ProfileItemsTags) success,
      s.entries[i]? = some x → x.op = .writeDataToDisk d tag.rawValue success →
        access = writes tag
  | _ => False

/-- A load that runs can read its file. -/
def ReadsFile (s : ProfileQueue Image) : Event Image Access → Prop
  | .operation (.main i access) =>
    ∀ x, s.entries[i]? = some x → IsLoad x.op → access = .succeeds
  | _ => True

/-- The files that were there hold the same. -/
def Kept (prior c : Contents) : Prop := ∀ tag, prior tag ≠ none → c tag = prior tag

/-- The loads that have run have found what the files held. -/
def Found (s t : ProfileQueue Image) : Prop :=
  ∀ tag data, t.progress[places s tag]? = some (.loadDataFromDisk tag.rawValue data, true) →
    data = contents s.env.disk tag

/-- All loads have run, and this is what they found. -/
structure Loaded (finds : Contents) (s t : ProfileQueue Image) : Prop where
  loads_eq : ∀ tag, t.progress[places s tag]? =
    some (.loadDataFromDisk tag.rawValue (finds tag), true)
  finds_or : ∀ tag, finds tag = contents s.env.disk tag ∨ finds tag = none

/-- A file has been written by the save of the default profile, or is as it was and will be. -/
def Defaulted (kit : UIKit Image) (writes : ProfileItemsTags → Access) (s t : ProfileQueue Image)
    (tag : ProfileItemsTags) : Prop :=
  contents t.env.disk tag = saved kit (defaultProfile kit) writes (contents s.env.disk) tag ∨
  contents t.env.disk tag = contents s.env.disk tag ∧ ∃ (i : ℕ) (success : Bool),
    t.progress[i]? = some (.writeDataToDisk (encoding kit (defaultProfile kit) tag)
      tag.rawValue success, false)

/-- How far a read has come: its loads, its profile, or the save of the default. -/
inductive Rereading (kit : UIKit Image) (writes : ProfileItemsTags → Access)
    (s t : ProfileQueue Image) : Prop
  | loading
      (loads : Loads (.userDataStore s.env.calls) True s t)
      (disk_eq : contents t.env.disk = contents s.env.disk)
  | loaded (finds : Contents) (found : Loaded finds s t)
      (profile_ne : profileOf kit finds ≠ none)
      (disk_eq : contents t.env.disk = contents s.env.disk)
      (settled : Settled (fun _ => True) t)
  | defaulting (finds : Contents) (found : Loaded finds s t)
      (profile_eq : profileOf kit finds = none)
      (pending : ∀ (i : ℕ) op, t.progress[i]? = some (op, false) →
        (∃ tag success, op =
          .writeDataToDisk (encoding kit (defaultProfile kit) tag) tag.rawValue success) ∨
        ∃ operations call, op = .writeProfile operations (.saveDefault call))
      (files : ∀ tag, Defaulted kit writes s t tag)

theorem uncancelled_of_steady (he : Steady writes s e) : Uncancelled e := by
  cases e with
  | save profile => exact he
  | read => exact he
  | readProfile => exact he
  | operation event =>
    cases event with
    | cancel i => exact he
    | start i => trivial
    | main i access => trivial

/-- With all that was found in the files there, what was found is what they held. -/
theorem finds_eq {finds : Contents} (hs : Loaded finds s t)
    (hprofile : profileOf kit finds ≠ none) :
    finds = contents s.env.disk := by
  obtain ⟨profile, hprofile⟩ := Option.ne_none_iff_exists'.mp hprofile
  funext tag
  exact (hs.finds_or tag).resolve_right (profileOf_present hprofile tag)

theorem found_iff {finds : Contents} (hs : Loaded finds s t) :
    Found s t ↔ finds = contents s.env.disk := by
  constructor
  · intro hfound
    funext tag
    exact hfound tag _ (hs.loads_eq tag)
  · rintro rfl tag data hdata
    rw [hs.loads_eq tag, Option.some.injEq, Prod.mk.injEq,
      Operation.loadDataFromDisk.injEq] at hdata
    exact hdata.1.2.symm

theorem loaded_congr {finds : Contents} (hs : Loaded finds s t)
    (hprogress : u.progress = t.progress) :
    Loaded finds s u := by
  refine ⟨?_, hs.finds_or⟩
  rw [hprogress]
  exact hs.loads_eq

/-- Loads that have run stay as they are. -/
theorem loaded_finish {finds : Contents} (hs : Loaded finds s t) {i : ℕ} {x : Entry}
    {access : Access} (hx : t.entries[i]? = some x) (hexecuting : x.phase = .executing) :
    Loaded finds s (ran kit t i x access) := by
  refine ⟨fun tag => ?_, hs.finds_or⟩
  have hload := hs.loads_eq tag
  refine OperationQueue.progress_finish_of_ne hload ?_ _
  intro hi
  rw [hi, progress_of_executing hx hexecuting, Option.some.injEq, Prod.mk.injEq] at hload
  cases hload.2

theorem rereading_congr (hs : Rereading kit writes s t) (hprogress : u.progress = t.progress)
    (henv : u.env = t.env) (hlayout : u.layout created = t.layout created) :
    Rereading kit writes s u := by
  cases hs with
  | loading hloads hdisk =>
    exact .loading (loads_congr hloads hprogress henv hlayout) (by rw [henv]; exact hdisk)
  | loaded finds hfound hprofile hdisk hsettled =>
    refine .loaded finds (loaded_congr hfound hprogress) hprofile (by rw [henv]; exact hdisk) ?_
    rw [Settled, hprogress]
    exact hsettled
  | defaulting finds hfound hprofile hpending hfiles =>
    refine .defaulting finds (loaded_congr hfound hprogress) hprofile ?_ ?_
    · rw [hprogress]
      exact hpending
    · intro tag
      rw [Defaulted, hprogress, henv]
      exact hfiles tag

/-- When the parse runs, all loads have. -/
theorem parse_loaded (hs : Loads (.userDataStore s.env.calls) True s t) (hordered : Ordered t)
    {x : Entry} (hx : t.entries[s.entries.length + 3]? = some x) (hexecuting : x.phase = .executing)
    (hop : x.op = .readProfile s.entries.length (s.entries.length + 1) (s.entries.length + 2)
      (.userDataStore s.env.calls)) :
    Loaded (fun tag => dataAt t.entries (places s tag)) s t := by
  refine ⟨fun tag => ?_, fun tag => ?_⟩
  · obtain ⟨data, finished, hload, -, -⟩ := hs.reading tag
    obtain ⟨y, hy, hyop, rfl⟩ := OperationQueue.entry_of_progress hload
    obtain ⟨z, hz, hdone⟩ :=
      OperationQueue.isFinishedAt_iff.mp (loads_finished hordered hx hexecuting hop tag)
    obtain rfl : y = z := Option.some.inj (hy.symm.trans hz)
    have hdata : dataAt t.entries (places s tag) = data := by
      rw [dataAt, hy, Option.map_some, hyop]
    rw [hload, hdata, hdone]
  · exact (parse_finds hs hordered hx hexecuting hop tag).imp_right And.right

/-- The parse of a read: the profile is there, or the default one is to be written. -/
theorem parse_rereading (hs : Loads (.userDataStore s.env.calls) True s t)
    (hdisk : contents t.env.disk = contents s.env.disk) (hordered : Ordered t) {x : Entry}
    {access : Access} (hx : t.entries[s.entries.length + 3]? = some x)
    (hexecuting : x.phase = .executing) (hcancelled : x.isCancelled = false)
    (hop : x.op = .readProfile s.entries.length (s.entries.length + 1) (s.entries.length + 2)
      (.userDataStore s.env.calls)) :
    Rereading kit writes s (ran kit t (s.entries.length + 3) x access) := by
  have hfound : Loaded _ s (ran kit t (s.entries.length + 3) x access) :=
    loaded_finish (parse_loaded hs hordered hx hexecuting hop) hx hexecuting
  have hmain : main kit FileUtils t.entries (s.entries.length + 3) x access t.env = _ :=
    main_parse hcancelled hop
  have hsame : contents (ran kit t (s.entries.length + 3) x access).env.disk =
      contents s.env.disk := by
    rw [← hdisk]
    refine congrArg contents (main_disk ?_)
    rw [hop]
    exact id
  generalize (fun tag => dataAt t.entries (places s tag)) = finds at hfound hmain
  cases hprofile : profileOf kit finds with
  | some profile =>
    rw [hprofile] at hmain
    refine .loaded finds hfound (by rw [hprofile]; exact Option.some_ne_none _) hsame ?_
    intro j op hlive
    rcases OperationQueue.progress_finish_cases hlive with
      ⟨-, -, hdone⟩ | ⟨hj, hold⟩ | ⟨-, -, a, ha, -⟩
    · cases hdone
    · exact absurd hold (parse_last hs hordered hx hexecuting hop hj)
    · rw [hmain] at ha
      cases ha
  | none =>
    rw [hprofile] at hmain
    refine .defaulting finds hfound hprofile ?_ ?_
    · intro j op hlive
      rcases OperationQueue.progress_finish_cases hlive with
        ⟨-, -, hdone⟩ | ⟨hj, hold⟩ | ⟨-, -, a, ha, rfl⟩
      · cases hdone
      · exact absurd hold (parse_last hs hordered hx hexecuting hop hj)
      · rw [hmain] at ha
        rcases mem_saveOperations ha with ⟨tag, hwrite⟩ | hreport
        · exact Or.inl ⟨tag, _, hwrite⟩
        · exact Or.inr ⟨_, _, hreport⟩
    · intro tag
      refine Or.inr ⟨congrFun hsame tag, ?_⟩
      have hadded {k : ℕ} {a : Operation × List ℕ}
          (hk : (saveOperations kit t.entries.length (defaultProfile kit)
            (.saveDefault s.env.calls))[k]? = some a) :
          (ran kit t (s.entries.length + 3) x access).progress[t.entries.length + k]? =
            some (a.1, false) := by
        apply OperationQueue.progress_finish_new
        rw [hmain]
        exact hk
      cases tag with
      | description => exact ⟨_, _, hadded (k := 0) rfl⟩
      | name => exact ⟨_, _, hadded (k := 1) rfl⟩
      | avatar => exact ⟨_, _, hadded (k := 2) rfl⟩

/-- A write of the default profile brings its file to what the save leaves in it. -/
theorem default_files {i : ℕ} {x : Entry} {access : Access} (hx : t.entries[i]? = some x)
    (hexecuting : x.phase = .executing) (hcancelled : x.isCancelled = false)
    {aim : ProfileItemsTags} {success : Bool}
    (hop : x.op =
      .writeDataToDisk (encoding kit (defaultProfile kit) aim) aim.rawValue success)
    (haccess : access = writes aim)
    (hfiles : ∀ tag, Defaulted kit writes s t tag) (tag : ProfileItemsTags) :
    Defaulted kit writes s (ran kit t i x access) tag := by
  have hmain : main kit FileUtils t.entries i x access t.env = _ := main_write hcancelled hop
  have hdisk : contents (ran kit t i x access).env.disk = Function.update (contents t.env.disk) aim
      (left (encoding kit (defaultProfile kit) aim) access (contents t.env.disk aim)) := by
    rw [← contents_save]
    exact congrArg (fun out => contents out.env.disk) hmain
  rw [Defaulted, hdisk]
  by_cases htag : tag = aim
  · subst htag
    left
    rw [Function.update_self, haccess, saved]
    rcases hfiles tag with hsaved | ⟨hsame, -⟩
    · rw [hsaved, saved, left_left]
    · rw [hsame]
  · rw [Function.update_of_ne htag]
    rcases hfiles tag with hsaved | ⟨hsame, j, success', hwrite⟩
    · exact Or.inl hsaved
    · refine Or.inr ⟨hsame, j, success', OperationQueue.progress_finish_of_ne hwrite ?_ _⟩
      rintro rfl
      rw [progress_of_executing hx hexecuting, hop, Option.some.injEq, Prod.mk.injEq,
        Operation.writeDataToDisk.injEq] at hwrite
      exact htag (rawValue_inj.mp hwrite.1.2.1).symm

theorem step_rereading (hs : Rereading kit writes s t) (hordered : Ordered t) (hcalm : t.Calm)
    (he : Steady writes t e) (h : step kit FileUtils t e = some u) :
    Rereading kit writes s u := by
  rcases uncancelled_step_cases hcalm (uncancelled_of_steady he) h with
    ⟨-, hprogress, henv, hlayout, -⟩ | ⟨i, x, access, rfl, -, hx, hexecuting, hcancelled, rfl⟩
  · exact rereading_congr hs hprogress henv hlayout
  · have hnot := OperationQueue.Entry.not_finished_of_executing hexecuting
    have hlive := progress_of_executing hx hexecuting
    cases hs with
    | loading hloads hdisk =>
      rcases loads_cases hloads hx hnot with ⟨tag, f, data, hi, hload⟩ | ⟨rfl, hparse⟩
      · obtain ⟨hloads', henv⟩ : _ ∧ (ran kit t i x access).env = t.env :=
          load_loads hloads hx hexecuting hcancelled (Or.inl trivial) hi hload
        exact .loading hloads' (by rw [henv]; exact hdisk)
      · exact parse_rereading hloads hdisk hordered hx hexecuting hcancelled hparse
    | loaded finds hfound hprofile hdisk hsettled =>
      exact absurd trivial (hsettled i x.op hlive)
    | defaulting finds hfound hprofile hpending hfiles =>
      have hadded : (main kit FileUtils t.entries i x access t.env).added = [] := by
        apply main_added_nil
        intro n d a completion hop
        rcases hpending i x.op hlive with ⟨tag, success, hwrite⟩ | ⟨operations, call, hreport⟩
        · rw [hop] at hwrite
          cases hwrite
        · rw [hop] at hreport
          cases hreport
      refine .defaulting finds (loaded_finish hfound hx hexecuting) hprofile ?_ ?_
      · intro j op hop
        rcases OperationQueue.progress_finish_cases hop with
          ⟨-, -, hdone⟩ | ⟨-, hold⟩ | ⟨-, -, a, ha, -⟩
        · cases hdone
        · exact hpending j op hold
        · rw [hadded] at ha
          cases ha
      · rcases hpending i x.op hlive with ⟨aim, success, hwrite⟩ | ⟨operations, call, hreport⟩
        · exact default_files hx hexecuting hcancelled hwrite
            (he x _ aim success hx hwrite) hfiles
        · have hdisk : (ran kit t i x access).env.disk = t.env.disk := by
            apply main_disk
            rw [hreport]
            exact id
          intro tag
          rw [Defaulted, hdisk]
          refine (hfiles tag).imp_right fun ⟨hsame, j, success, hwrite⟩ => ⟨hsame, j, success, ?_⟩
          refine OperationQueue.progress_finish_of_ne hwrite ?_ _
          rintro rfl
          rw [hlive, hreport, Option.some.injEq, Prod.mk.injEq] at hwrite
          cases hwrite.1

/-- A load finds its file exactly if its access succeeds. -/
theorem load_found_iff (hpresent : ∀ tag, contents s.env.disk tag ≠ none)
    (hs : Loads (.userDataStore s.env.calls) True s t)
    (hdisk : contents t.env.disk = contents s.env.disk) {tag : ProfileItemsTags} {x : Entry}
    {access : Access} (hx : t.entries[places s tag]? = some x)
    (hexecuting : x.phase = .executing) (hcancelled : x.isCancelled = false) {f : String}
    {data : Option Data} (hload : x.op = .loadDataFromDisk f data) :
    Found s (ran kit t (places s tag) x access) ↔
      ReadsFile t (.operation (.main (places s tag) access)) ∧ Found s t := by
  have hlive := progress_of_executing hx hexecuting
  obtain rfl : f = tag.rawValue := by
    obtain ⟨data', finished, htag, -, -⟩ := hs.reading tag
    rw [hlive, hload, Option.some.injEq, Prod.mk.injEq, Operation.loadDataFromDisk.injEq] at htag
    exact htag.1.1
  have hmain : main kit FileUtils t.entries (places s tag) x access t.env = _ :=
    main_load hcancelled hload
  have hself : (ran kit t (places s tag) x access).progress[places s tag]? =
      some (.loadDataFromDisk tag.rawValue (FileUtils.read tag.rawValue access t.env.disk),
        true) := by
    rw [ran, OperationQueue.progress_finish_self hx, hmain]
  have hreads : ReadsFile t (.operation (.main (places s tag) access)) ↔ access = .succeeds := by
    refine ⟨fun h => h x hx (hload ▸ trivial), fun h y _ _ => h⟩
  -- the other loads are as they were, and this one had not run
  have hothers : Found s t ↔ ∀ other data, places s other ≠ places s tag →
      (ran kit t (places s tag) x access).progress[places s other]? =
        some (.loadDataFromDisk other.rawValue data, true) → data = contents s.env.disk other := by
    constructor
    · intro hfound other data hne hother
      rcases OperationQueue.progress_finish_cases hother with ⟨heq, -⟩ | ⟨-, hold⟩ | ⟨hno, -⟩
      · exact absurd heq hne
      · exact hfound other data hold
      · cases hno
    · intro hfound other data hother
      have hne : places s other ≠ places s tag := by
        intro heq
        rw [heq, hlive, Option.some.injEq, Prod.mk.injEq] at hother
        cases hother.2
      exact hfound other data hne (OperationQueue.progress_finish_of_ne hother hne _)
  rw [hreads, hothers]
  constructor
  · intro hfound
    refine ⟨?_, fun other data _ hother => hfound other data hother⟩
    cases access with
    | succeeds => rfl
    | fails left => exact absurd (hfound tag _ hself).symm (hpresent tag)
  · rintro ⟨rfl, hfound⟩ other data hother
    by_cases hne : places s other = places s tag
    · rw [hne, hself, Option.some.injEq, Prod.mk.injEq, Operation.loadDataFromDisk.injEq] at hother
      obtain ⟨⟨hraw, rfl⟩, -⟩ := hother
      obtain rfl := rawValue_inj.mp hraw
      rw [← hdisk]
      rfl
    · exact hfound other data hne hother

/-- A step finds what the files held exactly if it can read the file it loads. -/
theorem step_found_iff (hpresent : ∀ tag, contents s.env.disk tag ≠ none)
    (hs : Rereading kit writes s t) (hordered : Ordered t) (hcalm : t.Calm)
    (he : Steady writes t e) (h : step kit FileUtils t e = some u) :
    Found s u ↔ ReadsFile t e ∧ Found s t := by
  rcases uncancelled_step_cases hcalm (uncancelled_of_steady he) h with
    ⟨-, hprogress, -, -, i, rfl⟩ | ⟨i, x, access, rfl, -, hx, hexecuting, hcancelled, rfl⟩
  · rw [Found, Found, hprogress]
    exact (and_iff_right trivial).symm
  · have hnot := OperationQueue.Entry.not_finished_of_executing hexecuting
    have hlive := progress_of_executing hx hexecuting
    have hother {finds : Contents} (hfound : Loaded finds s t) (hload : ¬ IsLoad x.op) :
        Found s (ran kit t i x access) ↔ ReadsFile t (.operation (.main i access)) ∧
          Found s t := by
      have hreads : ReadsFile t (.operation (.main i access)) := by
        intro y hy hop
        obtain rfl : x = y := Option.some.inj (hx.symm.trans hy)
        exact absurd hop hload
      rw [found_iff hfound, found_iff (loaded_finish hfound hx hexecuting), and_iff_right hreads]
    cases hs with
    | loading hloads hdisk =>
      rcases loads_cases hloads hx hnot with ⟨tag, f, data, rfl, hload⟩ | ⟨rfl, hparse⟩
      · exact load_found_iff hpresent hloads hdisk hx hexecuting hcancelled hload
      · refine hother (parse_loaded hloads hordered hx hexecuting hparse) ?_
        rw [hparse]
        exact id
    | loaded finds hfound hprofile hdisk hsettled =>
      exact absurd trivial (hsettled i x.op hlive)
    | defaulting finds hfound hprofile hpending hfiles =>
      refine hother hfound ?_
      rcases hpending i x.op hlive with ⟨tag, success, hwrite⟩ | ⟨operations, call, hreport⟩
      · rw [hwrite]
        exact id
      · rw [hreport]
        exact id

theorem run_found_iff {es : List (Event Image Access)}
    (hpresent : ∀ tag, contents s.env.disk tag ≠ none) (hs : Rereading kit writes s t)
    (hordered : Ordered t) (hcalm : t.Calm) (hes : Along (step kit FileUtils) (Steady writes) t es)
    (hrun : run (step kit FileUtils) t es = some u) :
    Found s u ↔ Along (step kit FileUtils) ReadsFile t es ∧ Found s t := by
  have hstep (t : ProfileQueue Image) (e : Event Image Access) (u : ProfileQueue Image)
      (ht : Rereading kit writes s t ∧ Ordered t ∧ t.Calm) (he : Steady writes t e)
      (h : step kit FileUtils t e = some u) : Rereading kit writes s u ∧ Ordered u ∧ u.Calm :=
    ⟨step_rereading ht.1 ht.2.1 ht.2.2 he h,
      step_uncancelled ht.2.1 ht.2.2 (uncancelled_of_steady he) h⟩
  have hfound (t : ProfileQueue Image) (e : Event Image Access) (u : ProfileQueue Image)
      (ht : Rereading kit writes s t ∧ Ordered t ∧ t.Calm) (he : Steady writes t e)
      (h : step kit FileUtils t e = some u) : Found s u ↔ ReadsFile t e ∧ Found s t :=
    step_found_iff hpresent ht.1 ht.2.1 ht.2.2 he h
  exact run_iff_along hstep hfound ⟨hs, hordered, hcalm⟩ hes hrun

/-- At the end of a read the files have been kept, or the default profile saved. -/
theorem rereading_drained (hs : Rereading kit writes s t) (ht : t.Drained) :
    (profileOf kit (contents s.env.disk) ≠ none ∧ Found s t ∧
      contents t.env.disk = contents s.env.disk) ∨
    (¬ (profileOf kit (contents s.env.disk) ≠ none ∧ Found s t) ∧
      contents t.env.disk = saved kit (defaultProfile kit) writes (contents s.env.disk)) := by
  cases hs with
  | loading hloads hdisk =>
    obtain ⟨op, hunread⟩ := hloads.unread
    exact absurd trivial (settled_of_drained ht (fun _ => True) _ op hunread)
  | loaded finds hfound hprofile hdisk hsettled =>
    have hfinds := finds_eq hfound hprofile
    rw [hfinds] at hprofile
    exact Or.inl ⟨hprofile, (found_iff hfound).mpr hfinds, hdisk⟩
  | defaulting finds hfound hprofile hpending hfiles =>
    right
    constructor
    · rintro ⟨hpresent, hall⟩
      rw [(found_iff hfound).mp hall] at hprofile
      exact hpresent hprofile
    · funext tag
      rcases hfiles tag with hsaved | ⟨-, i, success, hwrite⟩
      · exact hsaved
      · exact absurd trivial (settled_of_drained ht (fun _ => True) i _ hwrite)

/-- A read of profile files on its own keeps the files that are there if and only if they
make a profile and all its loads can read, or saving the default profile would not change
them either. -/
theorem kept_iff {disk : Files} {called : ProfileQueue Image} {es : List (Event Image Access)}
    (hreachable : Reachable (step kit FileUtils) (State.empty kit disk) s) (hs : s.Drained)
    (hcall : step kit FileUtils s .readProfile = some called)
    (hes : Along (step kit FileUtils) (Steady writes) called es)
    (hrun : run (step kit FileUtils) called es = some t) (ht : t.Drained) :
    Kept (contents s.env.disk) (contents t.env.disk) ↔
      (profileOf kit (contents s.env.disk) ≠ none ∧
        Along (step kit FileUtils) ReadsFile called es) ∨
      Kept (contents s.env.disk)
        (saved kit (defaultProfile kit) writes (contents s.env.disk)) := by
  have hordered : Ordered s :=
    reachable_invariant (empty_ordered kit disk) (fun _ _ _ hs h => step_ordered hs h) hreachable
  have hcalled := step_ordered hordered hcall
  obtain rfl := Option.some.inj hcall
  have hloads : Loads (.userDataStore s.env.calls) True s _ := call_loads hs _
  have hcalm := OperationQueue.addOperations_calm (OperationQueue.drained_calm hs)
    (readOperations s.entries.length (.userDataStore s.env.calls))
  have hrereading : Rereading kit writes s t := by
    refine (run_uncancelled (fun _ _ he => uncancelled_of_steady he)
      (fun _ _ _ hs hordered hcalm he h => step_rereading hs hordered hcalm he h)
      (.loading hloads rfl) hcalled hcalm hes hrun).1
  have hnone : Found s (call s (readOperations s.entries.length (.userDataStore s.env.calls))) := by
    intro tag data hdata
    have hload := read_loads (s := s) (.userDataStore s.env.calls) tag
    rw [← places, hdata, Option.some.injEq, Prod.mk.injEq] at hload
    cases hload.2
  have halong (hprofile : profileOf kit (contents s.env.disk) ≠ none) : Found s t ↔
      Along (step kit FileUtils) ReadsFile
        (call s (readOperations s.entries.length (.userDataStore s.env.calls))) es := by
    obtain ⟨profile, hprofile⟩ := Option.ne_none_iff_exists'.mp hprofile
    rw [run_found_iff (profileOf_present hprofile) (.loading hloads rfl) hcalled hcalm hes hrun,
      and_iff_left hnone]
  rcases rereading_drained hrereading ht with ⟨hprofile, hfound, hdisk⟩ | ⟨hmissed, hdisk⟩
  · refine iff_of_true ?_ (Or.inl ⟨hprofile, (halong hprofile).mp hfound⟩)
    intro tag _
    rw [hdisk]
  · rw [hdisk]
    refine (or_iff_right ?_).symm
    rintro ⟨hprofile, hreads⟩
    exact hmissed ⟨hprofile, (halong hprofile).mpr hreads⟩

def succeeding : ProfileItemsTags → Access := fun _ => .succeeds

theorem runThrough_steady {places : List ℕ} (s : ProfileQueue Image) :
    Along (step kit FileUtils) (Steady succeeding) s (runThrough places) := by
  refine along_of_forall_mem ?_ s
  intro e he s
  obtain ⟨i, rfl | rfl⟩ := mem_runThrough he
  · trivial
  · exact fun _ _ _ _ _ _ => rfl

/-- A name, a description and an avatar. -/
def complete : Files
  | "PROFILE_avatar" => some .empty
  | fileName => GCDProfileManager.noAvatar fileName

theorem profileOf_complete :
    profileOf plainKit (contents complete) = some ⟨"Nick", "Kazantsev", some .empty⟩ := by
  have hname : (contents complete .name).bind string = some "Nick" := string_toUTF8 "Nick"
  have hdescription : (contents complete .description).bind string = some "Kazantsev" :=
    string_toUTF8 "Kazantsev"
  rw [profileOf_eq, hname, hdescription]
  rfl

theorem kept_complete :
    ∃ t, (step plainKit FileUtils (State.empty plainKit complete) .readProfile).bind
        (fun called => run (step plainKit FileUtils) called (runThrough [0, 1, 2, 3])) = some t ∧
      Kept (contents complete) (contents t.env.disk) := by
  obtain ⟨called, hcall⟩ : ∃ called,
      step plainKit FileUtils (State.empty plainKit complete) .readProfile = some called := ⟨_, rfl⟩
  obtain ⟨t, hrun⟩ :
      ∃ t, run (step plainKit FileUtils) called (runThrough [0, 1, 2, 3]) = some t := by
    obtain rfl := Option.some.inj hcall
    exact ⟨_, rfl⟩
  have hdrained : t.Drained := by
    obtain rfl := Option.some.inj hcall
    obtain rfl := Option.some.inj hrun
    unfold OperationQueue.State.Drained
    decide
  refine ⟨t, by rw [hcall, Option.bind_some, hrun], ?_⟩
  have hempty : (State.empty plainKit complete : ProfileQueue (Option Data)).Drained :=
    fun _ hx => absurd hx List.not_mem_nil
  refine (kept_iff ⟨[], rfl⟩ hempty hcall (runThrough_steady called) hrun hdrained).mpr
    (Or.inl ⟨?_, ?_⟩)
  · change profileOf plainKit (contents complete) ≠ none
    rw [profileOf_complete]
    exact Option.some_ne_none _
  · refine along_of_forall_mem ?_ called
    intro e he s
    obtain ⟨i, rfl | rfl⟩ := mem_runThrough he
    · trivial
    · exact fun _ _ _ => rfl

/-- A profile without an avatar is overwritten by the default one when it is read. -/
theorem not_kept :
    ¬ ∀ (disk : Files) (called t : ProfileQueue (Option Data))
        (es : List (Event (Option Data) Access)),
      step plainKit FileUtils (State.empty plainKit disk) .readProfile = some called →
        Along (step plainKit FileUtils) (Steady succeeding) called es →
          run (step plainKit FileUtils) called es = some t → t.Drained →
            Kept (contents disk) (contents t.env.disk) := by
  intro h
  have hkept := h GCDProfileManager.noAvatar _ _ (runThrough [0, 1, 2, 3, 4, 5, 6, 7]) rfl
    (runThrough_steady _) rfl (by unfold OperationQueue.State.Drained; decide) .name
    (Option.some_ne_none _)
  exact absurd (Option.some.inj hkept) (by decide)

end TinkoffChat.ProfileDefaults

import TinkoffChat.ProfileLoads

/-!
A profile saved and read back. A save that reports success has written the files
it has data for and has left the others alone, and a read makes its profile of
the three files. So an avatar without PNG data leaves the avatar of the profile
before, or no avatar file at all, which is then read as no profile.
-/
namespace TinkoffChat.ProfileReadback

open PartialRuns ProfileFiles OperationProfileManager ProfileTransfers ProfileLoads

variable {Image : Type*}

/-- Steps of the queue alone: no call, no cancellation, and loads that can read. -/
def Undisturbed (s : ProfileQueue Image) : Event Image Access → Prop
  | .operation (.start _) => True
  | .operation (.main i access) =>
    ∀ x, s.entries[i]? = some x → IsLoad x.op → access = .succeeds
  | _ => False

/-- The call is made in the first state, and its operations run on their own to the second. -/
def Alone (kit : UIKit Image) (s : ProfileQueue Image) (e : Event Image Access)
    (t : ProfileQueue Image) : Prop :=
  ∃ called es, step kit FileUtils s e = some called ∧
    Along (step kit FileUtils) Undisturbed called es ∧
    run (step kit FileUtils) called es = some t

/-- The profile read back after a save: without PNG data the avatar is the blank image. -/
def readBack (kit : UIKit Image) (profile : ProfileViewModel Image) : ProfileViewModel Image :=
  ⟨profile.name, profile.description,
    if (kit.pngData profile.avatar).isSome then profile.avatar else kit.blank⟩

variable {kit : UIKit Image} {s t u : ProfileQueue Image} {e : Event Image Access}

theorem uncancelled_of_undisturbed (he : Undisturbed s e) : Uncancelled e := by
  cases e with
  | save profile => exact he
  | read => exact he
  | readProfile => exact he
  | operation event =>
    cases event with
    | cancel i => exact he
    | start i => trivial
    | main i access => trivial

theorem undisturbed_step_cases (hs : s.Calm) (he : Undisturbed s e)
    (h : step kit FileUtils s e = some t) :
    (t.Calm ∧ t.progress = s.progress ∧ t.env = s.env ∧
      t.layout created = s.layout created) ∨
    ∃ i x access, t.Calm ∧ s.entries[i]? = some x ∧ x.phase = .executing ∧
      x.isCancelled = false ∧ (IsLoad x.op → access = .succeeds) ∧ t = ran kit s i x access := by
  rcases uncancelled_step_cases hs (uncancelled_of_undisturbed he) h with
    ⟨hcalm, hprogress, henv, hlayout, -⟩ |
      ⟨i, x, access, rfl, hcalm, hx, hexecuting, hcancelled, rfl⟩
  · exact Or.inl ⟨hcalm, hprogress, henv, hlayout⟩
  · exact Or.inr ⟨i, x, access, hcalm, hx, hexecuting, hcancelled, he x hx, rfl⟩

/-- What a save has reported: nothing yet, or a success that all its writes had. -/
def Reported (s t : ProfileQueue Image) : Prop :=
  (t.env.answers = s.env.answers ∧ ∃ op, t.progress[s.entries.length + 3]? = some (op, false)) ∨
    ∃ success, t.env.answers = s.env.answers ++ [(s.env.calls, .saved success)] ∧
      (∃ op, t.progress[s.entries.length + 3]? = some (op, true)) ∧
      (success = true → ∀ k < 3, ∃ d f,
        t.progress[s.entries.length + k]? = some (.writeDataToDisk d f true, true))

/-- A save on its own, made in the first state and still running in the second. -/
structure Saving (kit : UIKit Image) (profile : ProfileViewModel Image) (s t : ProfileQueue Image) :
    Prop where
  calm : t.Calm
  ordered : Ordered t
  layout_eq : t.layout created = s.layout created ++
    saveOperations kit s.entries.length profile (.caller s.env.calls)
  writing : Writing (fun tag => (encoding kit profile tag).or (contents s.env.disk tag))
    s.entries.length t
  reported : Reported s t

theorem saving_cases {profile : ProfileViewModel Image} (hs : Saving kit profile s t) {i : ℕ}
    {x : Entry} (hx : t.entries[i]? = some x) (hlive : x.isFinished = false) :
    (i < s.entries.length + 3 ∧ ∃ d f success, x.op = .writeDataToDisk d f success) ∨
      (i = s.entries.length + 3 ∧ x.op = .writeProfile
        [s.entries.length, s.entries.length + 1, s.entries.length + 2] (.caller s.env.calls)) := by
  have hi : s.entries.length ≤ i :=
    hs.writing.recent i x.op (hlive ▸ OperationQueue.progress_of_entry hx)
  obtain ⟨a, ha, hcreated⟩ := created_of_layout hs.layout_eq hi hx
  rcases saveOperations_cases ha with ⟨hk, tag, hwrite⟩ | ⟨hk, hreport⟩
  · left
    rw [hwrite] at hcreated
    refine ⟨by omega, ?_⟩
    cases hop : x.op <;> rw [hop] at hcreated <;> cases hcreated
    exact ⟨_, _, _, rfl⟩
  · right
    rw [hreport] at hcreated
    refine ⟨by omega, ?_⟩
    cases hop : x.op <;> rw [hop] at hcreated <;> cases hcreated
    rfl

theorem save_saving (hs : s.Drained) (hordered : Ordered s) {profile : ProfileViewModel Image}
    (h : step kit FileUtils s (.save profile) = some t) : Saving kit profile s t := by
  have hordered := step_ordered hordered h
  obtain ⟨added, hadded, hlayout⟩ := step_layout h
  obtain rfl := Option.some.inj h
  refine ⟨OperationQueue.addOperations_calm (OperationQueue.drained_calm hs) _, hordered, ?_, ?_,
    Or.inl ⟨rfl, _, OperationQueue.progress_addOperations_new rfl⟩⟩
  · exact OperationQueue.layout_addOperations _
  · exact save_writing (settled_of_drained hs IsWrite)
      (fun i op hop => absurd trivial (settled_of_drained hs (fun _ => True) i op hop))
      (Nat.le_refl _) profile _

/-- The report of a save is a success only if all its writes have been. -/
theorem report_reported {profile : ProfileViewModel Image} (hs : Saving kit profile s t)
    {x : Entry} {access : Access} (hx : t.entries[s.entries.length + 3]? = some x)
    (hexecuting : x.phase = .executing) (hcancelled : x.isCancelled = false)
    (hop : x.op = .writeProfile
      [s.entries.length, s.entries.length + 1, s.entries.length + 2] (.caller s.env.calls)) :
    Reported s (ran kit t (s.entries.length + 3) x access) := by
  have hlive := progress_of_executing hx hexecuting
  rcases hs.reported with ⟨hanswers, -⟩ | ⟨success, -, ⟨op, hdone⟩, -⟩
  · right
    have hmain : (ran kit t (s.entries.length + 3) x access).env.answers =
        t.env.answers ++ [(s.env.calls, .saved (!(List.any [s.entries.length,
          s.entries.length + 1, s.entries.length + 2] fun j => !successAt t.entries j)))] := by
      simp only [OperationQueue.State.finish, OperationQueue.State.addOperations, main, hop,
        hcancelled, Bool.false_eq_true, if_false, SaveCompletion.invoke, Env.answer]
    refine ⟨_, hmain.trans (by rw [hanswers]), ⟨_, OperationQueue.progress_finish_self hx _⟩, ?_⟩
    intro hsuccess k hk
    have hj : s.entries.length + k ∈
        [s.entries.length, s.entries.length + 1, s.entries.length + 2] := by
      simp only [List.mem_cons, List.not_mem_nil, or_false]
      omega
    have htrue : successAt t.entries (s.entries.length + k) = true := by
      rw [Bool.not_eq_true', List.any_eq_false] at hsuccess
      simpa using hsuccess _ hj
    have hfinished : t.isFinishedAt (s.entries.length + k) := by
      apply operands_finished hs.ordered hx hexecuting
      rw [hop]
      exact hj
    obtain ⟨y, d, f, hy, hyop⟩ := successAt_eq_true.mp htrue
    obtain ⟨z, hz, hdone⟩ := OperationQueue.isFinishedAt_iff.mp hfinished
    obtain rfl : y = z := Option.some.inj (hy.symm.trans hz)
    have hne : s.entries.length + k ≠ s.entries.length + 3 := by omega
    refine ⟨d, f, OperationQueue.progress_finish_of_ne ?_ hne _⟩
    rw [OperationQueue.progress_of_entry hy, hyop, hdone]
  · rw [hlive] at hdone
    cases hdone

theorem step_saving {profile : ProfileViewModel Image} (hs : Saving kit profile s t)
    (he : Undisturbed t e) (h : step kit FileUtils t e = some u) : Saving kit profile s u := by
  have hordered := step_ordered hs.ordered h
  rcases undisturbed_step_cases hs.calm he h with
    ⟨hcalm, hprogress, henv, hlayout⟩ | ⟨i, x, access, hcalm, hx, hexecuting, hcancelled, -, rfl⟩
  · refine ⟨hcalm, hordered, hlayout.trans hs.layout_eq,
      writing_congr hs.writing hprogress (congrArg Env.disk henv), ?_⟩
    rw [Reported, hprogress, henv]
    exact hs.reported
  · have hlive := progress_of_executing hx hexecuting
    have hcases := saving_cases hs hx (OperationQueue.Entry.not_finished_of_executing hexecuting)
    have hadded : (main kit FileUtils t.entries i x access t.env).added = [] := by
      apply main_added_nil
      intro n d a completion hop
      rcases hcases with ⟨-, d', f, success, hwrite⟩ | ⟨-, hreport⟩
      · rw [hop] at hwrite
        cases hwrite
      · rw [hop] at hreport
        cases hreport
    have hlayout : (ran kit t i x access).layout created = t.layout created := by
      rw [ran, OperationQueue.layout_finish hx (created_main ..), hadded]
      exact List.append_nil _
    have hbase : s.entries.length ≤ t.entries.length := by
      have hlength := congrArg List.length hs.layout_eq
      simp only [OperationQueue.State.layout, List.length_append, List.length_map] at hlength
      omega
    refine ⟨hcalm, hordered, hlayout.trans hs.layout_eq,
      main_writing hs.writing hx hexecuting hcancelled (fun a ha => ?_) hbase, ?_⟩
    · rw [hadded] at ha
      cases ha
    · rcases hcases with ⟨hi, d, f, success, hwrite⟩ | ⟨rfl, hreport⟩
      · have hmain : main kit FileUtils t.entries i x access t.env = _ :=
          main_write hcancelled hwrite
        have hanswers : (ran kit t i x access).env.answers = t.env.answers :=
          congrArg (fun out => out.env.answers) hmain
        have hkept {j : ℕ} {p : Operation × Bool} (hp : t.progress[j]? = some p) (hji : j ≠ i) :
            (ran kit t i x access).progress[j]? = some p :=
          OperationQueue.progress_finish_of_ne hp hji _
        have hlast : s.entries.length + 3 ≠ i := by omega
        rcases hs.reported with ⟨hsame, op, hop⟩ | ⟨success', hsaved, ⟨op, hop⟩, hall⟩
        · exact Or.inl ⟨hanswers.trans hsame, op, hkept hop hlast⟩
        · refine Or.inr ⟨success', hanswers.trans hsaved, ⟨op, hkept hop hlast⟩, ?_⟩
          intro hsuccess k hk
          obtain ⟨d', f', hdone⟩ := hall hsuccess k hk
          refine ⟨d', f', hkept hdone ?_⟩
          rintro rfl
          rw [hlive, Option.some.injEq, Prod.mk.injEq] at hdone
          cases hdone.2
      · exact report_reported hs hx hexecuting hcancelled hreport

/-- After a save that reports success the files hold what it had data for, and the
others what they held before. -/
theorem contents_of_saving {profile : ProfileViewModel Image} (hs : Saving kit profile s t)
    (hsuccess : t.env.answers = s.env.answers ++ [(s.env.calls, .saved true)]) :
    contents t.env.disk =
      fun tag => (encoding kit profile tag).or (contents s.env.disk tag) := by
  apply contents_of_writing hs.writing
  intro i data f success finished hi hop
  rcases hs.reported with ⟨hnone, -⟩ | ⟨success', hsaved, -, hall⟩
  · rw [hnone, List.self_eq_append_right] at hsuccess
    cases hsuccess
  · have htrue : success' = true := by
      rw [hsaved, List.append_cancel_left_eq, List.cons.injEq, Prod.mk.injEq,
        Answer.saved.injEq] at hsuccess
      exact hsuccess.1.2
    obtain ⟨x, hx, hxop, rfl⟩ := OperationQueue.entry_of_progress hop
    obtain ⟨a, ha, hcreated⟩ := created_of_layout hs.layout_eq hi hx
    rcases saveOperations_cases ha with ⟨hk, -⟩ | ⟨-, hreport⟩
    · obtain ⟨d, f', hdone⟩ := hall htrue _ hk
      rw [Nat.add_sub_cancel' hi, hop, Option.some.injEq, Prod.mk.injEq] at hdone
      exact ⟨hdone.2, (Operation.writeDataToDisk.inj hdone.1).2.2⟩
    · rw [hxop, hreport] at hcreated
      cases hcreated

theorem run_saving {profile : ProfileViewModel Image} {es : List (Event Image Access)}
    (hs : Saving kit profile s t) (hes : Along (step kit FileUtils) Undisturbed t es)
    (h : run (step kit FileUtils) t es = some u) : Saving kit profile s u :=
  run_invariant_along (fun _ _ _ hs he h => step_saving hs he h) hs hes h

/-- How far a read on its own has come: its loads, its profile, or the save of the default. -/
inductive Loading (kit : UIKit Image) (s t : ProfileQueue Image) : Prop
  | loading
      (recent : ∀ (i : ℕ) op, t.progress[i]? = some (op, false) → s.entries.length ≤ i)
      (layout_eq : t.layout created = s.layout created ++
        readOperations s.entries.length (.userDataStore s.env.calls))
      (reading : Reading False (contents s.env.disk)
        (loadAt s.entries.length (s.entries.length + 1) (s.entries.length + 2)) t)
      (answers_eq : t.env.answers = s.env.answers)
      (unread : ∃ op, t.progress[s.entries.length + 3]? = some (op, false))
  | loaded (profile : ProfileViewModel Image)
      (profile_eq : profileOf kit (contents s.env.disk) = some profile)
      (answers_eq : t.env.answers = s.env.answers ++ [(s.env.calls, .loaded profile)])
      (settled : Settled (fun _ => True) t)
  | defaulting
      (profile_eq : profileOf kit (contents s.env.disk) = none)
      (answers_eq : ∃ rest, t.env.answers = s.env.answers ++ rest ∧
        ∀ a ∈ rest, a.2 = .defaulted (defaultProfile kit))
      (saving : ∀ (i : ℕ) op, t.progress[i]? = some (op, false) →
        IsWrite op ∨ ∃ operations call, op = .writeProfile operations (.saveDefault call))

theorem loading_of_loads (hs : Loads (.userDataStore s.env.calls) False s t) : Loading kit s t :=
  .loading hs.recent hs.layout_eq hs.reading hs.answers_eq hs.unread

theorem read_loading (hs : s.Drained) (h : step kit FileUtils s .readProfile = some t) :
    Loading kit s t := by
  obtain rfl := Option.some.inj h
  exact loading_of_loads (call_loads hs _)

theorem loading_congr (hs : Loading kit s t) (hprogress : u.progress = t.progress)
    (henv : u.env = t.env) (hlayout : u.layout created = t.layout created) :
    Loading kit s u := by
  cases hs with
  | loading hrecent hlayout' hreading hanswers hunread =>
    exact loading_of_loads
      (loads_congr ⟨hrecent, hlayout', hreading, hanswers, hunread⟩ hprogress henv hlayout)
  | loaded profile hprofile hanswers hsettled =>
    refine .loaded profile hprofile ?_ ?_
    · rwa [henv]
    · rwa [Settled, hprogress]
  | defaulting hprofile hanswers hsaving =>
    refine .defaulting hprofile ?_ ?_
    · rwa [henv]
    · rwa [hprogress]

/-- The parse of a read: the profile of the files as they were when it was made. -/
theorem parse_loading (hs : Loads (.userDataStore s.env.calls) False s t) (hordered : Ordered t)
    {x : Entry} {access : Access} (hx : t.entries[s.entries.length + 3]? = some x)
    (hexecuting : x.phase = .executing) (hcancelled : x.isCancelled = false)
    (hop : x.op = .readProfile s.entries.length (s.entries.length + 1) (s.entries.length + 2)
      (.userDataStore s.env.calls)) :
    Loading kit s (ran kit t (s.entries.length + 3) x access) := by
  have hdata : (fun tag => dataAt t.entries (places s tag)) = contents s.env.disk := by
    funext tag
    rcases parse_finds hs hordered hx hexecuting hop tag with hfound | ⟨hfailing, -⟩
    · exact hfound
    · exact absurd hfailing id
  have hmain : main kit FileUtils t.entries (s.entries.length + 3) x access t.env = _ :=
    main_parse hcancelled hop
  rw [hdata] at hmain
  cases hprofile : profileOf kit (contents s.env.disk) with
  | some profile =>
    rw [hprofile] at hmain
    refine .loaded profile hprofile ?_ ?_
    · rw [← hs.answers_eq]
      exact congrArg (fun out => out.env.answers) hmain
    · intro j op hlive
      rcases OperationQueue.progress_finish_cases hlive with
        ⟨-, -, hdone⟩ | ⟨hj, hold⟩ | ⟨-, -, a, ha, -⟩
      · cases hdone
      · exact absurd hold (parse_last hs hordered hx hexecuting hop hj)
      · rw [hmain] at ha
        cases ha
  | none =>
    rw [hprofile] at hmain
    refine .defaulting hprofile ⟨[], ?_, fun a ha => absurd ha List.not_mem_nil⟩ ?_
    · rw [← hs.answers_eq, List.append_nil]
      exact congrArg (fun out => out.env.answers) hmain
    · intro j op hlive
      rcases OperationQueue.progress_finish_cases hlive with
        ⟨-, -, hdone⟩ | ⟨hj, hold⟩ | ⟨-, -, a, ha, rfl⟩
      · cases hdone
      · exact absurd hold (parse_last hs hordered hx hexecuting hop hj)
      · rw [hmain] at ha
        rcases mem_saveOperations ha with ⟨tag, hwrite⟩ | hreport
        · exact Or.inl (hwrite ▸ trivial)
        · exact Or.inr ⟨_, _, hreport⟩

/-- While the default profile is saved, nothing but it is answered. -/
theorem main_defaulting {i : ℕ} {x : Entry} {access : Access}
    (hop : IsWrite x.op ∨ ∃ operations call, x.op = .writeProfile operations (.saveDefault call)) :
    (main kit FileUtils t.entries i x access t.env).added = [] ∧
      ∃ rest, (ran kit t i x access).env.answers = t.env.answers ++ rest ∧
        ∀ a ∈ rest, a.2 = .defaulted (defaultProfile kit) := by
  constructor
  · apply main_added_nil
    intro n d a completion hread
    rw [hread] at hop
    rcases hop with hwrite | ⟨operations, call, hreport⟩
    · exact hwrite
    · cases hreport
  · obtain ⟨op, dependencies, phase, isCancelled⟩ := x
    rcases hop with hwrite | ⟨operations, call, hreport⟩
    · obtain ⟨d, f, success, rfl⟩ := isWrite_iff.mp hwrite
      refine ⟨[], ?_, fun a ha => absurd ha List.not_mem_nil⟩
      rw [List.append_nil]
      cases isCancelled <;> rfl
    · obtain rfl : op = .writeProfile operations (.saveDefault call) := hreport
      refine ⟨[(call, .defaulted (defaultProfile kit))], rfl, fun a ha => ?_⟩
      rw [List.mem_singleton.mp ha]

theorem step_loading (hs : Loading kit s t) (hordered : Ordered t) (hcalm : t.Calm)
    (he : Undisturbed t e) (h : step kit FileUtils t e = some u) : Loading kit s u := by
  rcases undisturbed_step_cases hcalm he h with
    ⟨-, hprogress, henv, hlayout⟩ | ⟨i, x, access, -, hx, hexecuting, hcancelled, haccess, rfl⟩
  · exact loading_congr hs hprogress henv hlayout
  · have hnot := OperationQueue.Entry.not_finished_of_executing hexecuting
    have hlive := progress_of_executing hx hexecuting
    cases hs with
    | loading hrecent hlayout hreading hanswers hunread =>
      have hloads : Loads (.userDataStore s.env.calls) False s t :=
        ⟨hrecent, hlayout, hreading, hanswers, hunread⟩
      rcases loads_cases hloads hx hnot with ⟨tag, f, data, hi, hload⟩ | ⟨rfl, hread⟩
      · have hfound := haccess (hload ▸ trivial)
        exact loading_of_loads
          (load_loads hloads hx hexecuting hcancelled (Or.inr hfound) hi hload).1
      · exact parse_loading hloads hordered hx hexecuting hcancelled hread
    | loaded profile hprofile hanswers hsettled => exact absurd trivial (hsettled i x.op hlive)
    | defaulting hprofile hanswers hsaving =>
      obtain ⟨rest, hanswers, hrest⟩ := hanswers
      obtain ⟨hadded, more, hmore, hdefaulted⟩ :
          (main kit FileUtils t.entries i x access t.env).added = [] ∧
            ∃ more, (ran kit t i x access).env.answers = t.env.answers ++ more ∧
              ∀ a ∈ more, a.2 = .defaulted (defaultProfile kit) :=
        main_defaulting (hsaving i x.op hlive)
      refine .defaulting hprofile ⟨rest ++ more, ?_, ?_⟩ ?_
      · rw [hmore, hanswers, List.append_assoc]
      · intro a ha
        rcases List.mem_append.mp ha with hold | hnew
        · exact hrest a hold
        · exact hdefaulted a hnew
      · intro j op hop
        rcases OperationQueue.progress_finish_cases hop with
          ⟨-, -, hdone⟩ | ⟨-, hold⟩ | ⟨-, -, a, ha, -⟩
        · cases hdone
        · exact hsaving j op hold
        · rw [hadded] at ha
          cases ha

/-- A read on its own ends with the profile of the files as they were, if they have one. -/
theorem loading_drained (hs : Loading kit s t) (hdrained : t.Drained)
    (profile : ProfileViewModel Image) :
    t.env.answers = s.env.answers ++ [(s.env.calls, .loaded profile)] ↔
      profileOf kit (contents s.env.disk) = some profile := by
  cases hs with
  | loading hrecent hlayout hreading hanswers hunread =>
    obtain ⟨op, hunread⟩ := hunread
    exact absurd trivial (settled_of_drained hdrained (fun _ => True) _ op hunread)
  | loaded found hfound hanswers hsettled =>
    rw [hanswers, hfound, List.append_cancel_left_eq]
    simp
  | defaulting hnone hanswers hsaving =>
    obtain ⟨rest, hanswers, hrest⟩ := hanswers
    rw [hanswers, hnone, List.append_cancel_left_eq]
    constructor
    · rintro rfl
      have hdefaulted := hrest _ (List.mem_singleton.mpr rfl)
      cases hdefaulted
    · intro h
      cases h

theorem saving_of_alone {profile : ProfileViewModel Image} (hs : s.Drained) (hordered : Ordered s)
    (h : Alone kit s (.save profile) t) : Saving kit profile s t := by
  obtain ⟨called, es, hcall, hes, hrun⟩ := h
  exact run_saving (save_saving hs hordered hcall) hes hrun

/-- A save that reports success has nothing left to run. -/
theorem drained_of_saving {profile : ProfileViewModel Image} (hs : Saving kit profile s t)
    (hsuccess : t.env.answers = s.env.answers ++ [(s.env.calls, .saved true)]) : t.Drained := by
  rcases hs.reported with ⟨hnone, -⟩ | ⟨success, hsaved, ⟨op, hlast⟩, hall⟩
  · rw [hnone, List.self_eq_append_right] at hsuccess
    cases hsuccess
  · have htrue : success = true := by
      rw [hsaved, List.append_cancel_left_eq, List.cons.injEq, Prod.mk.injEq,
        Answer.saved.injEq] at hsuccess
      exact hsuccess.1.2
    intro x hx
    obtain ⟨i, hi⟩ := List.mem_iff_getElem?.mp hx
    by_contra hlive
    rw [Bool.not_eq_true] at hlive
    have hprogress := OperationQueue.progress_of_entry hi
    have hbase := hs.writing.recent i x.op (hlive ▸ hprogress)
    rcases saving_cases hs hi hlive with ⟨hlt, -⟩ | ⟨rfl, -⟩
    · obtain ⟨d, f, hdone⟩ := hall htrue (i - s.entries.length) (by omega)
      rw [Nat.add_sub_cancel' hbase, hprogress, Option.some.injEq, Prod.mk.injEq, hlive] at hdone
      cases hdone.2
    · rw [hprogress, Option.some.injEq, Prod.mk.injEq, hlive] at hlast
      cases hlast.2

theorem loading_of_alone (hs : s.Drained) (hordered : Ordered s)
    (h : Alone kit s .readProfile t) : Loading kit s t := by
  obtain ⟨called, es, hcall, hes, hrun⟩ := h
  have hcalm : called.Calm := by
    obtain rfl := Option.some.inj hcall
    exact OperationQueue.addOperations_calm (OperationQueue.drained_calm hs) _
  exact (run_uncancelled (fun _ _ he => uncancelled_of_undisturbed he)
    (fun _ _ _ hs hordered hcalm he h => step_loading hs hordered hcalm he h)
    (read_loading hs hcall) (step_ordered hordered hcall) hcalm hes hrun).1

/-- What the files have after the save is the saved profile, if the avatar had PNG data
or the avatar file is there and holds no image. -/
theorem profileOf_saved_iff (hkit : kit.RoundTrips) (profile : ProfileViewModel Image)
    (prior : Contents) :
    profileOf kit (fun tag => (encoding kit profile tag).or (prior tag)) =
        some (readBack kit profile) ↔
      (kit.pngData profile.avatar).isSome ∨
        ∃ d, prior .avatar = some d ∧ (kit.image d).getD kit.blank = kit.blank := by
  rw [profileOf_encoding_or, readBack]
  cases hpng : kit.pngData profile.avatar with
  | some png =>
    have himage := hkit profile.avatar png hpng
    simp [himage]
  | none => simp [Option.map_eq_some_iff]

/-- After a save that reports success, a read delivers the saved profile exactly when
its avatar had PNG data, or the avatar file from before holds no image. -/
theorem readsBack_iff (hkit : kit.RoundTrips) {disk : Files}
    (hreachable : Reachable (step kit FileUtils) (State.empty kit disk) s) (hs : s.Drained)
    {profile : ProfileViewModel Image} (hsave : Alone kit s (.save profile) t)
    (hsuccess : t.env.answers = s.env.answers ++ [(s.env.calls, .saved true)])
    (hread : Alone kit t .readProfile u) (hu : u.Drained) :
    u.env.answers = t.env.answers ++ [(t.env.calls, .loaded (readBack kit profile))] ↔
      (kit.pngData profile.avatar).isSome ∨
        ∃ d, contents s.env.disk .avatar = some d ∧ (kit.image d).getD kit.blank = kit.blank := by
  have hordered : Ordered s :=
    reachable_invariant (empty_ordered kit disk) (fun _ _ _ hs h => step_ordered hs h) hreachable
  have hsaving := saving_of_alone hs hordered hsave
  have hloading := loading_of_alone (drained_of_saving hsaving hsuccess) hsaving.ordered hread
  rw [loading_drained hloading hu, contents_of_saving hsaving hsuccess, profileOf_saved_iff hkit]

theorem plainKit_roundTrips : plainKit.RoundTrips := by
  intro avatar png h
  exact congrArg some h.symm

theorem alone_runThrough {places : List ℕ}
    (h : (step kit FileUtils s e).bind (fun called => run (step kit FileUtils) called
      (runThrough places)) = some t) : Alone kit s e t := by
  obtain ⟨called, hcall, hrun⟩ := Option.bind_eq_some_iff.mp h
  refine ⟨called, runThrough places, hcall, along_of_forall_mem ?_ called, hrun⟩
  intro e he u
  obtain ⟨i, rfl | rfl⟩ := mem_runThrough he
  · trivial
  · exact fun _ _ _ => rfl

def withAvatar (avatar : Option Data) : ProfileViewModel (Option Data) :=
  ⟨"Nick", "Kazantsev", avatar⟩

/-- The empty queue over an empty disk. -/
def fresh : ProfileQueue (Option Data) := State.empty plainKit fun _ => none

theorem fresh_reachable :
    Reachable (step plainKit FileUtils) (State.empty plainKit fun _ => none) fresh := ⟨[], rfl⟩

theorem fresh_drained : fresh.Drained := fun _ hx => absurd hx List.not_mem_nil

theorem readsBack_withAvatar :
    ∃ t u, Alone plainKit fresh (.save (withAvatar (some .empty))) t ∧
      Alone plainKit t .readProfile u ∧
        u.env.answers = t.env.answers ++ [(t.env.calls, .loaded (withAvatar (some .empty)))] := by
  obtain ⟨t, ht⟩ : ∃ t, (step plainKit FileUtils fresh (.save (withAvatar (some .empty)))).bind
      (fun called => run (step plainKit FileUtils) called (runThrough [2, 0, 1, 3])) = some t :=
    ⟨_, rfl⟩
  obtain ⟨u, hu⟩ : ∃ u, (step plainKit FileUtils t .readProfile).bind
      (fun called => run (step plainKit FileUtils) called (runThrough [4, 5, 6, 7])) = some u := by
    obtain rfl := Option.some.inj ht
    exact ⟨_, rfl⟩
  have hsuccess : t.env.answers = fresh.env.answers ++ [(fresh.env.calls, .saved true)] := by
    obtain rfl := Option.some.inj ht
    rfl
  have hdrained : u.Drained := by
    obtain rfl := Option.some.inj ht
    obtain rfl := Option.some.inj hu
    unfold OperationQueue.State.Drained
    decide
  have hiff := readsBack_iff plainKit_roundTrips fresh_reachable fresh_drained
    (alone_runThrough ht) hsuccess (alone_runThrough hu) hdrained
  exact ⟨t, u, alone_runThrough ht, alone_runThrough hu, hiff.mpr (Or.inl rfl)⟩

/-- A profile whose avatar has no PNG data is read back as the default profile. -/
theorem not_readsBack :
    ¬ ∀ (profile : ProfileViewModel (Option Data)) (s t u : ProfileQueue (Option Data)),
      Reachable (step plainKit FileUtils) (State.empty plainKit fun _ => none) s → s.Drained →
        Alone plainKit s (.save profile) t →
          t.env.answers = s.env.answers ++ [(s.env.calls, .saved true)] →
            Alone plainKit t .readProfile u → u.Drained →
              u.env.answers =
                t.env.answers ++ [(t.env.calls, .loaded (readBack plainKit profile))] := by
  intro h
  obtain ⟨t, ht⟩ : ∃ t, (step plainKit FileUtils fresh (.save (withAvatar none))).bind
      (fun called => run (step plainKit FileUtils) called (runThrough [2, 0, 1, 3])) = some t :=
    ⟨_, rfl⟩
  obtain ⟨u, hu⟩ : ∃ u, (step plainKit FileUtils t .readProfile).bind
      (fun called => run (step plainKit FileUtils) called
        (runThrough [4, 5, 6, 7, 8, 9, 10, 11])) = some u := by
    obtain rfl := Option.some.inj ht
    exact ⟨_, rfl⟩
  have hsuccess : t.env.answers = [(0, .saved true)] := by
    obtain rfl := Option.some.inj ht
    rfl
  obtain ⟨hdrained, hdefaulted⟩ : u.Drained ∧
      u.env.answers = [(0, .saved true), (1, .defaulted (defaultProfile plainKit))] := by
    obtain rfl := Option.some.inj ht
    obtain rfl := Option.some.inj hu
    refine ⟨?_, rfl⟩
    unfold OperationQueue.State.Drained
    decide
  have hanswers := h (withAvatar none) fresh t u fresh_reachable fresh_drained
    (alone_runThrough ht) hsuccess (alone_runThrough hu) hdrained
  rw [hdefaulted, hsuccess, List.singleton_append, List.cons.injEq, List.cons.injEq] at hanswers
  cases congrArg Prod.snd hanswers.2.1

end TinkoffChat.ProfileReadback

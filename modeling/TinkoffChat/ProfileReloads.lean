import TinkoffChat.ProfileMixtures
import TinkoffChat.ProfileReadback

/-!
The reads that bring the user data store up to the files. As long as no save is
on the queue, every read of the store finds the profile the files hold, and the
parse of any of them stores it. A save that is made alone ends in such a queue
when it succeeds; when it fails, nothing is left to run.
-/
namespace TinkoffChat.ProfileReloads

open PartialRuns ProfileFiles OperationProfileManager ProfileTransfers ProfileReadback
open ProfileMixtures

variable {Image : Type*}

def cancelAllOperations (q : ProfileQueue Image) : ProfileQueue Image :=
  { q with entries := q.entries.map OperationQueue.Entry.cancel }

def saveProfile (kit : UIKit Image) (profile : ProfileViewModel Image) (q : ProfileQueue Image) :
    ProfileQueue Image :=
  call q (saveOperations kit q.entries.length profile (.caller q.env.calls))

def readProfile (q : ProfileQueue Image) : ProfileQueue Image :=
  call q (readOperations q.entries.length (.userDataStore q.env.calls))

/-- The files hold a profile, no save is on the queue, and every read still to parse is one
of the user data store that finds what they hold. -/
structure Reloading (kit : UIKit Image) (profile : ProfileViewModel Image)
    (q : ProfileQueue Image) : Prop where
  calm : q.Calm
  ordered : Ordered q
  settled : Settled IsSave q
  profile_eq : profileOf kit (contents q.env.disk) = some profile
  reads : ∀ (i : ℕ) n d a completion,
    q.progress[i]? = some (.readProfile n d a completion, false) →
      (∃ c, completion = .userDataStore c) ∧ Reading False (contents q.env.disk) (loadAt n d a) q

/-- A read is still to parse. -/
def Parsing (q : ProfileQueue Image) : Prop :=
  ∃ (i n d a : ℕ) (completion : ReadCompletion),
    q.progress[i]? = some (.readProfile n d a completion, false)

variable {kit : UIKit Image} {profile : ProfileViewModel Image} {q r : ProfileQueue Image}

theorem reloading_congr (hq : Reloading kit profile q) (hcalm : r.Calm) (hordered : Ordered r)
    (hprogress : r.progress = q.progress) (hdisk : r.env.disk = q.env.disk) :
    Reloading kit profile r := by
  refine ⟨hcalm, hordered, ?_, ?_, ?_⟩
  · rw [Settled, hprogress]
    exact hq.settled
  · rw [hdisk]
    exact hq.profile_eq
  · intro i n d a completion hread
    rw [hprogress] at hread
    obtain ⟨hcompletion, hreading⟩ := hq.reads i n d a completion hread
    rw [hdisk]
    exact ⟨hcompletion, reading_congr hreading hprogress hdisk⟩

theorem readProfile_reloading (hq : Reloading kit profile q) :
    Reloading kit profile (readProfile q) := by
  refine ⟨OperationQueue.addOperations_calm hq.calm _, ?_, ?_, hq.profile_eq, ?_⟩
  · have hstep : OperationProfileManager.step kit FileUtils q (.readProfile) =
        some (readProfile q) := rfl
    exact step_ordered hq.ordered hstep
  · intro i op hop
    rcases progress_read_cases hop with hold | ⟨-, ⟨tag, rfl⟩ | rfl⟩
    · exact hq.settled i op hold
    · exact id
    · exact id
  · intro i n d a completion hop
    rcases progress_read_cases hop with hold | ⟨-, ⟨tag, heq⟩ | heq⟩
    · obtain ⟨hcompletion, hreading⟩ := hq.reads i n d a completion hold
      exact ⟨hcompletion, call_reading hreading _⟩
    · cases heq
    · obtain ⟨rfl, rfl, rfl, rfl⟩ := Operation.readProfile.inj heq
      exact ⟨⟨_, rfl⟩, read_reading _⟩

theorem readProfile_parsing (q : ProfileQueue Image) : Parsing (readProfile q) := by
  have hnew : (readProfile q).progress[q.entries.length + 3]? = some (_, false) :=
    OperationQueue.progress_addOperations_new rfl
  exact ⟨_, _, _, _, _, hnew⟩

/-- What may run while the profile is reloaded: a load, or the parse of a read. -/
theorem reloading_cases (hq : Reloading kit profile q) {i : ℕ} {x : Entry}
    (hlive : q.progress[i]? = some (x.op, false)) :
    (∃ f data, x.op = .loadDataFromDisk f data) ∨
      ∃ n d a c, x.op = .readProfile n d a (.userDataStore c) ∧
        Reading False (contents q.env.disk) (loadAt n d a) q := by
  have hnot := hq.settled i x.op hlive
  cases hop : x.op with
  | loadDataFromDisk f data => exact Or.inl ⟨f, data, rfl⟩
  | writeDataToDisk data f success =>
    rw [hop] at hnot
    exact absurd trivial hnot
  | writeProfile operations completion =>
    rw [hop] at hnot
    exact absurd trivial hnot
  | readProfile n d a completion =>
    rw [hop] at hlive
    obtain ⟨⟨c, rfl⟩, hreading⟩ := hq.reads i n d a completion hlive
    exact Or.inr ⟨n, d, a, c, rfl, hreading⟩

/-- A parse makes the profile of the files. -/
theorem main_parsed (hq : Reloading kit profile q) {i : ℕ} {x : Entry} {access : Access}
    (hx : q.entries[i]? = some x) (hexecuting : x.phase = .executing)
    (hcancelled : x.isCancelled = false) {n d a c : ℕ}
    (hop : x.op = .readProfile n d a (.userDataStore c))
    (hreading : Reading False (contents q.env.disk) (loadAt n d a) q) :
    main kit FileUtils q.entries i x access q.env =
      ⟨x.op, ({ q.env with profile := some profile }).answer c (.loaded profile), []⟩ := by
  have hfinished (tag : ProfileItemsTags) : q.isFinishedAt (loadAt n d a tag) := by
    apply operands_finished hq.ordered hx hexecuting
    rw [hop]
    cases tag <;> simp [operands, loadAt]
  have hdata : (fun tag => dataAt q.entries (loadAt n d a tag)) = contents q.env.disk := by
    funext tag
    rcases dataAt_of_reading hreading hfinished tag with hfound | ⟨hfailing, -⟩
    · exact hfound
    · exact absurd hfailing id
  simp only [main, hop, hcancelled, Bool.false_eq_true, if_false, hdata, hq.profile_eq,
    ReadCompletion.invoke]

theorem ran_reloading (hq : Reloading kit profile q) {i : ℕ} {x : Entry} {access : Access}
    (hx : q.entries[i]? = some x) (hexecuting : x.phase = .executing)
    (hcancelled : x.isCancelled = false) (hcalm : (ran kit q i x access).Calm)
    (hordered : Ordered (ran kit q i x access))
    (haccess : IsLoad x.op → access = .succeeds) :
    Reloading kit profile (ran kit q i x access) := by
  have hlive := progress_of_executing hx hexecuting
  have hwrite : ¬ IsWrite x.op := by
    rcases reloading_cases hq hlive with ⟨f, data, hop⟩ | ⟨n, d, a, c, hop, -⟩
    · rw [hop]
      exact id
    · rw [hop]
      exact id
  have hadded : (main kit FileUtils q.entries i x access q.env).added = [] := by
    rcases reloading_cases hq hlive with ⟨f, data, hop⟩ | ⟨n, d, a, c, hop, hreading⟩
    · rw [main_load hcancelled hop]
    · rw [main_parsed hq hx hexecuting hcancelled hop hreading]
  have hold {j : ℕ} {op : Operation}
      (h : (ran kit q i x access).progress[j]? = some (op, false)) :
      q.progress[j]? = some (op, false) := by
    rcases OperationQueue.progress_finish_cases h with
      ⟨-, -, hdone⟩ | ⟨-, hold⟩ | ⟨-, -, a, ha, -⟩
    · cases hdone
    · exact hold
    · rw [hadded] at ha
      cases ha
  have hdisk : (ran kit q i x access).env.disk = q.env.disk := main_disk hwrite
  refine ⟨hcalm, hordered, fun j op hop => hq.settled j op (hold hop), ?_, ?_⟩
  · rw [hdisk]
    exact hq.profile_eq
  · intro j n d a completion hop
    obtain ⟨hcompletion, hreading⟩ := hq.reads j n d a completion (hold hop)
    rw [hdisk]
    exact ⟨hcompletion, main_reading hreading hx hexecuting hcancelled
      (fun hload => Or.inr (haccess hload)) fun h => absurd h hwrite⟩

/-- A step of the queue while the profile is reloaded: it leaves the store and the answers
as they are, or a read has parsed and stores the profile. -/
theorem step_reloading (hq : Reloading kit profile q)
    {e : OperationProfileManager.Event Image Access} (he : Undisturbed q e)
    (h : OperationProfileManager.step kit FileUtils q e = some r) :
    Reloading kit profile r ∧
      ((r.env = q.env ∧ (Parsing q → Parsing r)) ∨
        r.env.profile = some profile ∧
          ∃ c, r.env.answers = q.env.answers ++ [(c, .loaded profile)]) := by
  have hordered := step_ordered hq.ordered h
  rcases undisturbed_step_cases hq.calm he h with
    ⟨hcalm, hprogress, henv, -⟩ | ⟨i, x, access, hcalm, hx, hexecuting, hcancelled, haccess, rfl⟩
  · refine ⟨reloading_congr hq hcalm hordered hprogress (congrArg Env.disk henv),
      Or.inl ⟨henv, ?_⟩⟩
    rw [Parsing, Parsing, hprogress]
    exact id
  · refine ⟨ran_reloading hq hx hexecuting hcancelled hcalm hordered haccess, ?_⟩
    have hlive := progress_of_executing hx hexecuting
    rcases reloading_cases hq hlive with ⟨f, data, hop⟩ | ⟨n, d, a, c, hop, hreading⟩
    · left
      constructor
      · exact congrArg OperationQueue.Outcome.env (main_load hcancelled hop)
      · rintro ⟨j, n, d, a, completion, hread⟩
        refine ⟨j, n, d, a, completion, OperationQueue.progress_finish_of_ne hread ?_ _⟩
        rintro rfl
        rw [hlive, hop, Option.some.injEq, Prod.mk.injEq] at hread
        cases hread.1
    · right
      have hmain : main kit FileUtils q.entries i x access q.env = _ :=
        main_parsed hq hx hexecuting hcancelled hop hreading
      exact ⟨congrArg (fun out => out.env.profile) hmain, c,
        congrArg (fun out => out.env.answers) hmain⟩

theorem not_parsing_of_drained (hq : q.Drained) : ¬ Parsing q := by
  rintro ⟨i, n, d, a, completion, hread⟩
  exact absurd trivial (settled_of_drained hq (fun _ => True) i _ hread)

theorem drained_reloading (hq : q.Drained) (hordered : Ordered q)
    (hprofile : profileOf kit (contents q.env.disk) = some profile) : Reloading kit profile q := by
  refine ⟨OperationQueue.drained_calm hq, hordered, settled_of_drained hq IsSave, hprofile, ?_⟩
  intro i n d a completion hread
  exact absurd trivial (settled_of_drained hq (fun _ => True) i _ hread)

/-- A readProfile that finds a profile leaves it in the store. -/
theorem reloading_of_alone {s : ProfileQueue Image} (hs : s.Drained) (hordered : Ordered s)
    (hprofile : profileOf kit (contents s.env.disk) = some profile)
    (h : Alone kit s .readProfile q) (hq : q.Drained) :
    Reloading kit profile q ∧ q.env.profile = some profile := by
  obtain ⟨called, es, hcall, hes, hrun⟩ := h
  obtain rfl := Option.some.inj hcall
  have hstep (q : ProfileQueue Image) (e : OperationProfileManager.Event Image Access)
      (r : ProfileQueue Image)
      (hq : Reloading kit profile q ∧ (Parsing q ∨ q.env.profile = some profile))
      (he : Undisturbed q e) (h : OperationProfileManager.step kit FileUtils q e = some r) :
      Reloading kit profile r ∧ (Parsing r ∨ r.env.profile = some profile) := by
    obtain ⟨hq, hstored⟩ := hq
    obtain ⟨hr, ⟨henv, hparsing⟩ | ⟨hprofile, -⟩⟩ := step_reloading hq he h
    · rw [henv]
      exact ⟨hr, hstored.imp_left hparsing⟩
    · exact ⟨hr, Or.inr hprofile⟩
  have hstart := readProfile_reloading (drained_reloading hs hordered hprofile)
  obtain ⟨hreloading, hstored⟩ :=
    run_invariant_along hstep ⟨hstart, Or.inl (readProfile_parsing s)⟩ hes hrun
  exact ⟨hreloading, hstored.resolve_left (not_parsing_of_drained hq)⟩

theorem cancelAllOperations_of_drained (hq : q.Drained) : cancelAllOperations q = q := by
  have hentries : q.entries.map OperationQueue.Entry.cancel = q.entries := by
    refine (List.map_congr_left fun x hx => ?_).trans (List.map_id q.entries)
    rw [OperationQueue.Entry.cancel, if_pos (hq x hx), id]
  rw [cancelAllOperations, hentries]

theorem step_ne_some_of_drained (hq : q.Drained) {e : OperationProfileManager.Event Image Access}
    (he : Undisturbed q e) : OperationProfileManager.step kit FileUtils q e ≠ some r := by
  intro h
  have hfinished {i : ℕ} {x : Entry} (hx : q.entries[i]? = some x) : x.isFinished = true :=
    hq x (List.mem_of_getElem? hx)
  cases e with
  | save profile => exact he
  | read => exact he
  | readProfile => exact he
  | operation event =>
    rw [step_operation] at h
    cases event with
    | cancel i => exact he
    | start i =>
      obtain ⟨x, hx, hpending, -⟩ := OperationQueue.start_eq_some.mp h
      have hlive := OperationQueue.Entry.not_finished_of_pending hpending
      rw [hfinished hx] at hlive
      cases hlive
    | main i access =>
      obtain ⟨x, hx, hexecuting, -⟩ := OperationQueue.main_eq_some.mp h
      have hlive := OperationQueue.Entry.not_finished_of_executing hexecuting
      rw [hfinished hx] at hlive
      cases hlive

/-- The report of a save is the last of its operations. -/
theorem report_drained {s : ProfileQueue Image} (hs : Saving kit profile s q) {x : Entry}
    {access : Access} (hx : q.entries[s.entries.length + 3]? = some x)
    (hexecuting : x.phase = .executing)
    (hop : x.op = .writeProfile
      [s.entries.length, s.entries.length + 1, s.entries.length + 2] (.caller s.env.calls)) :
    (ran kit q (s.entries.length + 3) x access).Drained := by
  intro z hz
  obtain ⟨j, hj⟩ := List.mem_iff_getElem?.mp hz
  rcases OperationQueue.entry_finish_cases hj with ⟨-, rfl⟩ | ⟨hne, hold⟩ | ⟨k, a, -, ha, -⟩
  · rfl
  · by_contra hlive
    rw [Bool.not_eq_true] at hlive
    have hbase := hs.writing.recent j z.op (hlive ▸ OperationQueue.progress_of_entry hold)
    rcases saving_cases hs hold hlive with ⟨hlt, -⟩ | ⟨heq, -⟩
    · -- the report has waited for the writes
      have hfinished : q.isFinishedAt j := by
        apply operands_finished hs.ordered hx hexecuting
        rw [hop]
        simp only [operands, List.mem_cons, List.not_mem_nil, or_false]
        omega
      obtain ⟨y, hy, hdone⟩ := OperationQueue.isFinishedAt_iff.mp hfinished
      obtain rfl : z = y := Option.some.inj (hold.symm.trans hy)
      rw [hlive] at hdone
      cases hdone
    · exact hne heq
  · rw [main_added_nil (fun n d a completion hread => by rw [hop] at hread; cases hread)] at ha
    cases ha

/-- A step of the queue while a save is under way: it goes on, has succeeded or has failed. -/
theorem step_of_saving (hkit : kit.RoundTrips) {s : ProfileQueue Image}
    (hs : Saving kit profile s q) (hpng : kit.pngData profile.avatar ≠ none)
    (hanswers : q.env.answers = s.env.answers) {e : OperationProfileManager.Event Image Access}
    (he : Undisturbed q e) (h : OperationProfileManager.step kit FileUtils q e = some r) :
    Ordered r ∧ ((Saving kit profile s r ∧ r.env.answers = s.env.answers) ∨
      (Reloading kit profile r ∧ ∃ c, r.env.answers = s.env.answers ++ [(c, .saved true)]) ∨
      (r.Drained ∧ ∃ c, r.env.answers = s.env.answers ++ [(c, .saved false)])) := by
  have hr := step_saving hs he h
  refine ⟨hr.ordered, ?_⟩
  rcases hr.reported with ⟨hsame, -⟩ | ⟨success, hsaved, -⟩
  · exact Or.inl ⟨hr, hsame⟩
  · right
    cases success with
    | true =>
      refine Or.inl ⟨drained_reloading (drained_of_saving hr hsaved) hr.ordered ?_, _, hsaved⟩
      obtain ⟨png, hdata⟩ := Option.ne_none_iff_exists'.mp hpng
      have himage := hkit profile.avatar png hdata
      rw [contents_of_saving hr hsaved, profileOf_encoding_or, hdata, Option.some_or,
        Option.map_some, himage, Option.getD_some]
    | false =>
      refine Or.inr ⟨?_, _, hsaved⟩
      have hanswered : r.env.answers ≠ q.env.answers := by
        rw [hsaved, hanswers]
        simp
      rcases undisturbed_step_cases hs.calm he h with
        ⟨-, -, henv, -⟩ | ⟨i, x, access, -, hx, hexecuting, hcancelled, -, rfl⟩
      · exact absurd (congrArg Env.answers henv) hanswered
      · rcases saving_cases hs hx (OperationQueue.Entry.not_finished_of_executing hexecuting) with
          ⟨-, d, f, success, hwrite⟩ | ⟨rfl, hreport⟩
        · have hmain : main kit FileUtils q.entries i x access q.env = _ :=
            main_write hcancelled hwrite
          exact absurd (congrArg (fun out => out.env.answers) hmain) hanswered
        · exact report_drained hs hx hexecuting hreport

end TinkoffChat.ProfileReloads

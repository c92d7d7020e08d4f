import TinkoffChat.OperationProfileManager
import TinkoffChat.ProfileReloads

/-!
The profile queue after all its operations were cancelled. A main asks `isCancelled`
once and does the rest afterwards, so a cancellation can fall in between: the main of an
operation is two events here. An operation that was waiting is skipped when it is started,
and a main that asks later finds itself cancelled. So only the mains that had asked already
still write a file or report what the writes made of it; of the others only the report
of a save does anything: it reports false, or hands out the default profile.
-/
namespace TinkoffChat.CancelledQueue

open PartialRuns ProfileFiles OperationProfileManager ProfileReloads

variable {Image Disk Access : Type*}

/-- The queue, and what the mains that have asked `isCancelled` were told. -/
structure World (Image Disk : Type*) where
  queue : State Image Disk
  found : ℕ → Option Bool

inductive Event (Access : Type*)
  | cancel (index : ℕ)
  | start (index : ℕ)
  | check (index : ℕ)
  | body (index : ℕ) (access : Access)

/-- A main that is not cancelled when it asks does all that follows, cancelled since or not. -/
def step (kit : UIKit Image) (fileManager : FileUtilsManager Disk Access)
    (w : World Image Disk) : Event Access → Option (World Image Disk)
  | .cancel index =>
    (OperationQueue.step (main kit fileManager) w.queue (.cancel index)).map fun queue =>
      { w with queue }
  | .start index =>
    (OperationQueue.step (main kit fileManager) w.queue (.start index)).map fun queue =>
      { w with queue }
  | .check index => w.queue.entries[index]?.bind fun x =>
      if x.phase = .executing ∧ w.found index = none then
        some { w with found := Function.update w.found index (some x.isCancelled) }
      else none
  | .body index access => w.queue.entries[index]?.bind fun x =>
      (w.found index).bind fun isCancelled =>
        if x.phase = .executing then
          some { w with
            queue := w.queue.finish index x
              (main kit fileManager w.queue.entries index { x with isCancelled } access
                w.queue.env) }
        else none

/-- `cancelAllOperations` over any file manager. -/
def cancelAll (s : State Image Disk) : State Image Disk :=
  { s with entries := s.entries.map OperationQueue.Entry.cancel }

theorem cancelAll_eq (q : ProfileTransfers.ProfileQueue Image) :
    cancelAll q = cancelAllOperations q := rfl

def World.cancelAll (w : World Image Disk) : World Image Disk :=
  { w with queue := CancelledQueue.cancelAll w.queue }

/-- The operation at the place was not cancelled when its main asked, and what follows is
still to come. -/
def Past (w : World Image Disk) (i : ℕ) (op : Operation) : Prop :=
  ∃ x, w.queue.entries[i]? = some x ∧ x.phase = .executing ∧ x.op = op ∧ w.found i = some false

/-- A report of a save is running its main; unless it is past its check, it reports false. -/
def Reports (w : World Image Disk) (operations : List ℕ) (completion : SaveCompletion)
    (success : Bool) : Prop :=
  ∃ (i : ℕ) (x : Entry), w.queue.entries[i]? = some x ∧ x.phase = .executing ∧
    x.op = .writeProfile operations completion ∧ (w.found i = some false ∨ success = false)

/-- What a save's completion makes of a report. -/
def savedAnswer (kit : UIKit Image) (success : Bool) : SaveCompletion → ℕ × Answer Image
  | .caller call => (call, .saved success)
  | .saveDefault call => (call, .defaulted (defaultProfile kit))

/-- One call of `fileManager.save`. -/
structure Saving (Access : Type*) where
  data : Option Data
  fileName : String
  access : Access

def Saving.disk (fileManager : FileUtilsManager Disk Access) (disk : Disk)
    (a : Saving Access) : Disk :=
  (fileManager.save a.data a.fileName a.access disk).2

/-- What the queue does after the cancellation: the disk has the writes of operations past
their check, nothing is added, and the reports that were running answer. -/
structure Silent (kit : UIKit Image) (fileManager : FileUtilsManager Disk Access)
    (w v : World Image Disk) : Prop where
  written : ∃ saves : List (Saving Access),
    v.queue.env.disk = saves.foldl (Saving.disk fileManager) w.queue.env.disk ∧
      ∀ a ∈ saves, ∃ i success, Past w i (.writeDataToDisk a.data a.fileName success)
  saved : ∀ i, v.queue.env.saved i = w.queue.env.saved i ∨
    ∃ data fileName success, Past w i (.writeDataToDisk data fileName success)
  layout : v.queue.layout created = w.queue.layout created
  answers : ∃ later, v.queue.env.answers = w.queue.env.answers ++ later ∧ ∀ a ∈ later,
    ∃ operations completion success, Reports w operations completion success ∧
      a = savedAnswer kit success completion
  reports : ∃ later, v.queue.env.reports = w.queue.env.reports ++ later ∧ ∀ r ∈ later,
    ∃ completion, Reports w r.1 completion r.2
  profile : v.queue.env.profile = w.queue.env.profile ∨
    v.queue.env.profile = some (defaultProfile kit) ∧
      ∃ operations call success, Reports w operations (.saveDefault call) success

/-- Everything unfinished is cancelled, and what runs its main ran it in the first world,
where it was past its check if it is now. -/
structure Winding (w v : World Image Disk) : Prop where
  cancelled : ∀ (i : ℕ) (x : Entry), v.queue.entries[i]? = some x → x.isFinished = false →
    x.isCancelled = true
  running : ∀ (i : ℕ) (y : Entry), v.queue.entries[i]? = some y → y.phase = .executing →
    ∃ x, w.queue.entries[i]? = some x ∧ x.phase = .executing ∧ x.op = y.op
  found : ∀ i, v.found i = some false → w.found i = some false

variable {kit : UIKit Image} {fileManager : FileUtilsManager Disk Access}
  {w v u : World Image Disk} {i : ℕ} {x : Entry}

theorem check_eq_some : step kit fileManager w (.check i) = some v ↔
    ∃ x, w.queue.entries[i]? = some x ∧ x.phase = .executing ∧ w.found i = none ∧
      v = { w with found := Function.update w.found i (some x.isCancelled) } := by
  simp only [step, Option.bind_eq_some_iff, Option.ite_none_right_eq_some, and_assoc,
    Option.some.injEq]
  constructor
  · rintro ⟨x, hx, hexecuting, hfound, rfl⟩
    exact ⟨x, hx, hexecuting, hfound, rfl⟩
  · rintro ⟨x, hx, hexecuting, hfound, rfl⟩
    exact ⟨x, hx, hexecuting, hfound, rfl⟩

theorem body_eq_some {access : Access} : step kit fileManager w (.body i access) = some v ↔
    ∃ x isCancelled, w.queue.entries[i]? = some x ∧ x.phase = .executing ∧
      w.found i = some isCancelled ∧
      v = { w with
        queue := w.queue.finish i x
          (main kit fileManager w.queue.entries i { x with isCancelled } access w.queue.env) } := by
  simp only [step, Option.bind_eq_some_iff, Option.ite_none_right_eq_some, Option.some.injEq]
  constructor
  · rintro ⟨x, hx, isCancelled, hfound, hexecuting, rfl⟩
    exact ⟨x, isCancelled, hx, hexecuting, hfound, rfl⟩
  · rintro ⟨x, isCancelled, hx, hexecuting, hfound, rfl⟩
    exact ⟨x, hx, isCancelled, hfound, hexecuting, rfl⟩

/-- A main that nothing comes between is the one event of the queue. -/
theorem run_check_body {s : State Image Disk} {access : Access} (hfound : w.found i = none)
    (h : OperationQueue.step (main kit fileManager) w.queue (.main i access) = some s) :
    ∃ found, run (step kit fileManager) w [.check i, .body i access] = some ⟨s, found⟩ := by
  obtain ⟨x, hx, hexecuting, rfl⟩ := OperationQueue.main_eq_some.mp h
  have hcheck : step kit fileManager w (.check i) = some _ :=
    check_eq_some.mpr ⟨x, hx, hexecuting, hfound, rfl⟩
  have hbody : step kit fileManager
      { w with found := Function.update w.found i (some x.isCancelled) } (.body i access) =
        some _ :=
    body_eq_some.mpr ⟨x, x.isCancelled, hx, hexecuting, Function.update_self _ _ _, rfl⟩
  exact ⟨_, (run_cons_of_step hcheck _).trans (run_cons_of_step hbody [])⟩

theorem cancelAll_winding (w : World Image Disk) : Winding w w.cancelAll := by
  constructor
  · intro i y hy hlive
    rw [World.cancelAll, cancelAll, List.getElem?_map, Option.map_eq_some_iff] at hy
    obtain ⟨x, -, rfl⟩ := hy
    rw [OperationQueue.Entry.isFinished, x.cancel_phase] at hlive
    rw [OperationQueue.Entry.cancel, if_neg]
    rw [OperationQueue.Entry.isFinished, hlive]
    exact Bool.false_ne_true
  · intro i y hy hexecuting
    rw [World.cancelAll, cancelAll, List.getElem?_map, Option.map_eq_some_iff] at hy
    obtain ⟨x, hx, rfl⟩ := hy
    rw [x.cancel_phase] at hexecuting
    exact ⟨x, hx, hexecuting, x.cancel_op.symm⟩
  · exact fun _ => id

theorem cancelAll_layout (s : State Image Disk) :
    (cancelAll s).layout created = s.layout created := by
  rw [OperationQueue.State.layout, cancelAll, List.map_map, OperationQueue.State.layout]
  apply List.map_congr_left
  intro x _
  rw [Function.comp_apply, x.cancel_op, x.cancel_dependencies]

theorem cancelAll_silent (kit : UIKit Image) (fileManager : FileUtilsManager Disk Access)
    (w : World Image Disk) : Silent kit fileManager w w.cancelAll :=
  ⟨⟨[], rfl, by simp⟩, fun _ => Or.inl rfl, cancelAll_layout w.queue,
    ⟨[], (List.append_nil _).symm, by simp⟩, ⟨[], (List.append_nil _).symm, by simp⟩, Or.inl rfl⟩

theorem replace_winding (hv : Winding w v) (hx : v.queue.entries[i]? = some x) {y : Entry}
    (hcancelled : y.isFinished = false → y.isCancelled = true)
    (hrunning : y.phase = .executing → x.phase = .executing ∧ x.op = y.op) :
    Winding w { v with queue := v.queue.replace i y } := by
  refine ⟨?_, ?_, hv.found⟩
  · intro j z hz hlive
    rcases OperationQueue.entry_replace_cases hz with ⟨rfl, rfl⟩ | ⟨-, hold⟩
    · exact hcancelled hlive
    · exact hv.cancelled j z hold hlive
  · intro j z hz hexecuting
    rcases OperationQueue.entry_replace_cases hz with ⟨rfl, rfl⟩ | ⟨-, hold⟩
    · obtain ⟨hphase, hop⟩ := hrunning hexecuting
      rw [← hop]
      exact hv.running j x hx hphase
    · exact hv.running j z hold hexecuting

theorem cancel_winding (hv : Winding w v) (hx : v.queue.entries[i]? = some x) :
    Winding w { v with queue := v.queue.replace i x.cancel } := by
  apply replace_winding hv hx
  · intro hlive
    rw [OperationQueue.Entry.isFinished, x.cancel_phase] at hlive
    have hcancelled := hv.cancelled i x hx hlive
    unfold OperationQueue.Entry.cancel
    split <;> simp [hcancelled]
  · intro hexecuting
    rw [x.cancel_phase] at hexecuting
    exact ⟨hexecuting, x.cancel_op.symm⟩

/-- What is cancelled before it is started is skipped. -/
theorem start_winding (hv : Winding w v) (hx : v.queue.entries[i]? = some x)
    (hpending : x.phase = .pending) :
    Winding w { v with queue := v.queue.replace i x.start } := by
  have hcancelled := hv.cancelled i x hx (OperationQueue.Entry.not_finished_of_pending hpending)
  apply replace_winding hv hx
  · intro hlive
    rw [x.start_isFinished, hcancelled] at hlive
    cases hlive
  · intro hexecuting
    simp [OperationQueue.Entry.start, hcancelled] at hexecuting

/-- A main that asks after the cancellation finds itself cancelled. -/
theorem check_winding (hv : Winding w v) (hx : v.queue.entries[i]? = some x)
    (hexecuting : x.phase = .executing) :
    Winding w { v with found := Function.update v.found i (some x.isCancelled) } := by
  refine ⟨hv.cancelled, hv.running, fun j hj => ?_⟩
  replace hj : Function.update v.found i (some x.isCancelled) j = some false := hj
  rcases eq_or_ne j i with rfl | hne
  · rw [Function.update_self, hv.cancelled j x hx
      (OperationQueue.Entry.not_finished_of_executing hexecuting)] at hj
    cases hj
  · rw [Function.update_of_ne hne] at hj
    exact hv.found j hj

theorem finish_winding (hv : Winding w v) (hx : v.queue.entries[i]? = some x)
    {out : OperationQueue.Outcome Operation (Env Image Disk)} (hadded : out.added = []) :
    Winding w { v with queue := v.queue.finish i x out } := by
  have hdone : Winding w
      { v with queue := v.queue.replace i { x with op := out.op, phase := .done } } :=
    replace_winding hv hx (fun hlive => by cases hlive) (fun hexecuting => by cases hexecuting)
  have hentries : (v.queue.finish i x out).entries =
      (v.queue.replace i { x with op := out.op, phase := .done }).entries := by
    rw [OperationQueue.State.finish, hadded]
    exact List.append_nil _
  exact ⟨hentries ▸ hdone.cancelled, hentries ▸ hdone.running, hv.found⟩

/-- A main leaves all as it was, writes a file, reports a save, or is a parse that goes on. -/
theorem main_cases (kit : UIKit Image) (fileManager : FileUtilsManager Disk Access)
    (entries : List Entry) (i : ℕ) (x : Entry) (access : Access) (env : Env Image Disk) :
    (∃ n d a completion, x.op = .readProfile n d a completion ∧ x.isCancelled = false) ∨
      (main kit fileManager entries i x access env).added = [] ∧
        ((main kit fileManager entries i x access env).env = env ∨
          (∃ data fileName success, x.op = .writeDataToDisk data fileName success ∧
            x.isCancelled = false ∧
            (main kit fileManager entries i x access env).env =
              { env with
                disk := Saving.disk fileManager env.disk ⟨data, fileName, access⟩
                saved := Function.update env.saved i
                  (some (fileManager.save data fileName access env.disk).1) }) ∨
          ∃ operations completion success, x.op = .writeProfile operations completion ∧
            (x.isCancelled = false ∨ success = false) ∧
            (main kit fileManager entries i x access env).env = completion.invoke kit success
              { env with reports := env.reports ++ [(operations, success)] }) := by
  obtain ⟨op, dependencies, phase, isCancelled⟩ := x
  cases op with
  | loadDataFromDisk fileName data =>
    cases isCancelled with
    | true => exact Or.inr ⟨rfl, Or.inl rfl⟩
    | false => exact Or.inr ⟨rfl, Or.inl rfl⟩
  | writeDataToDisk data fileName success =>
    cases isCancelled with
    | true => exact Or.inr ⟨rfl, Or.inl rfl⟩
    | false => exact Or.inr ⟨rfl, Or.inr (Or.inl ⟨data, fileName, success, rfl, rfl, rfl⟩)⟩
  | writeProfile operations completion =>
    cases isCancelled with
    | true => exact Or.inr ⟨rfl, Or.inr (Or.inr ⟨_, _, false, rfl, Or.inr rfl, rfl⟩)⟩
    | false => exact Or.inr ⟨rfl, Or.inr (Or.inr ⟨_, _, _, rfl, Or.inl rfl, rfl⟩)⟩
  | readProfile n d a completion =>
    cases isCancelled with
    | true => exact Or.inr ⟨rfl, Or.inl rfl⟩
    | false => exact Or.inl ⟨n, d, a, completion, rfl, rfl⟩

theorem silent_congr (hv : Silent kit fileManager w v) (henv : u.queue.env = v.queue.env)
    (hlayout : u.queue.layout created = v.queue.layout created) : Silent kit fileManager w u := by
  obtain ⟨hwritten, hsaved, hlayout', hanswers, hreports, hprofile⟩ := hv
  rw [← henv] at hwritten hsaved hanswers hreports hprofile
  exact ⟨hwritten, hsaved, hlayout.trans hlayout', hanswers, hreports, hprofile⟩

/-- A write past its check is one more write to the disk. -/
theorem write_silent (hv : Silent kit fileManager w v) {data : Option Data} {fileName : String}
    {success : Bool} {access : Access} {result : Option Bool}
    (hpast : Past w i (.writeDataToDisk data fileName success))
    (hlayout : u.queue.layout created = v.queue.layout created)
    (hu : u.queue.env = { v.queue.env with
      disk := Saving.disk fileManager v.queue.env.disk ⟨data, fileName, access⟩
      saved := Function.update v.queue.env.saved i result }) : Silent kit fileManager w u := by
  obtain ⟨saves, hdisk, hsaves⟩ := hv.written
  refine ⟨⟨saves ++ [⟨data, fileName, access⟩], ?_, ?_⟩, ?_, hlayout.trans hv.layout, ?_, ?_, ?_⟩
  · rw [List.foldl_append, ← hdisk, hu]
    rfl
  · intro a ha
    rcases List.mem_append.mp ha with hold | hnew
    · exact hsaves a hold
    · rw [List.mem_singleton.mp hnew]
      exact ⟨i, success, hpast⟩
  · intro j
    rcases eq_or_ne j i with rfl | hne
    · exact Or.inr ⟨data, fileName, success, hpast⟩
    · have hsame : u.queue.env.saved j = v.queue.env.saved j := by
        rw [hu]
        exact Function.update_of_ne hne _ _
      rw [hsame]
      exact hv.saved j
  · rw [hu]
    exact hv.answers
  · rw [hu]
    exact hv.reports
  · rw [hu]
    exact hv.profile

/-- A report that was running answers its call and writes nothing. -/
theorem report_silent (hv : Silent kit fileManager w v) {operations : List ℕ}
    {completion : SaveCompletion} {success : Bool}
    (hreport : Reports w operations completion success)
    (hlayout : u.queue.layout created = v.queue.layout created)
    (hu : u.queue.env = completion.invoke kit success
      { v.queue.env with reports := v.queue.env.reports ++ [(operations, success)] }) :
    Silent kit fileManager w u := by
  obtain ⟨answers, hanswers, hlater⟩ := hv.answers
  obtain ⟨reports, hreports, hreported⟩ := hv.reports
  have hanswer : u.queue.env.answers =
      w.queue.env.answers ++ (answers ++ [savedAnswer kit success completion]) := by
    rw [← List.append_assoc, ← hanswers, hu]
    cases completion <;> rfl
  refine ⟨?_, ?_, hlayout.trans hv.layout, ⟨_, hanswer, ?_⟩,
    ⟨reports ++ [(operations, success)], ?_, ?_⟩, ?_⟩
  · rw [hu, SaveCompletion.invoke_disk]
    exact hv.written
  · rw [hu, SaveCompletion.invoke_saved]
    exact hv.saved
  · intro a ha
    rcases List.mem_append.mp ha with hold | hnew
    · exact hlater a hold
    · exact ⟨operations, completion, success, hreport, List.mem_singleton.mp hnew⟩
  · rw [hu, SaveCompletion.invoke_reports, hreports, List.append_assoc]
  · intro r hr
    rcases List.mem_append.mp hr with hold | hnew
    · exact hreported r hold
    · rw [List.mem_singleton.mp hnew]
      exact ⟨completion, hreport⟩
  · cases completion with
    | caller call =>
      rw [hu]
      exact hv.profile
    | saveDefault call =>
      rw [hu]
      exact Or.inr ⟨rfl, operations, call, success, hreport⟩

/-- What follows the check of a main that was running before the cancellation. -/
theorem body_silent {access : Access} {isCancelled : Bool}
    (hparse : ∀ i n d a completion, ¬ Past w i (.readProfile n d a completion))
    (hwinding : Winding w v) (hsilent : Silent kit fileManager w v)
    (hx : v.queue.entries[i]? = some x) (hexecuting : x.phase = .executing)
    (hfound : v.found i = some isCancelled)
    (hu : u = { v with
      queue := v.queue.finish i x
        (main kit fileManager v.queue.entries i { x with isCancelled } access v.queue.env) }) :
    Winding w u ∧ Silent kit fileManager w u := by
  obtain ⟨y, hy, hphase, hop⟩ := hwinding.running i x hx hexecuting
  have hpast (h : isCancelled = false) : w.found i = some false :=
    hwinding.found i (hfound.trans (congrArg some h))
  rcases main_cases kit fileManager v.queue.entries i { x with isCancelled } access v.queue.env with
    ⟨n, d, a, completion, hread, hgoes⟩ | ⟨hadded, hmain⟩
  · exact absurd ⟨y, hy, hphase, hop.trans hread, hpast hgoes⟩ (hparse i n d a completion)
  · have hlayout : u.queue.layout created = v.queue.layout created := by
      rw [hu]
      refine (OperationQueue.layout_finish hx
        (created_main kit fileManager _ i { x with isCancelled } access _)).trans ?_
      rw [hadded]
      exact List.append_nil _
    refine ⟨hu ▸ finish_winding hwinding hx hadded, ?_⟩
    rcases hmain with hsame | ⟨data, fileName, success, hwrite, hgoes, hwritten⟩ |
      ⟨operations, completion, success, hreport, hgoes, hreported⟩
    · exact silent_congr hsilent (by rw [hu]; exact hsame) hlayout
    · exact write_silent hsilent ⟨y, hy, hphase, hop.trans hwrite, hpast hgoes⟩ hlayout
        (by rw [hu]; exact hwritten)
    · exact report_silent hsilent
        ⟨i, y, hy, hphase, hop.trans hreport, hgoes.imp_left hpast⟩ hlayout
        (by rw [hu]; exact hreported)

/-- Each step of the queue after the cancellation. -/
theorem step_silent {e : Event Access}
    (hparse : ∀ i n d a completion, ¬ Past w i (.readProfile n d a completion))
    (hv : Winding w v ∧ Silent kit fileManager w v)
    (h : step kit fileManager v e = some u) : Winding w u ∧ Silent kit fileManager w u := by
  obtain ⟨hwinding, hsilent⟩ := hv
  cases e with
  | cancel i =>
    obtain ⟨s, hs, rfl⟩ := Option.map_eq_some_iff.mp h
    obtain ⟨x, hx, rfl⟩ := OperationQueue.cancel_eq_some.mp hs
    refine ⟨cancel_winding hwinding hx, silent_congr hsilent rfl ?_⟩
    exact OperationQueue.layout_replace hx (by rw [x.cancel_op]) x.cancel_dependencies
  | start i =>
    obtain ⟨s, hs, rfl⟩ := Option.map_eq_some_iff.mp h
    obtain ⟨x, hx, hpending, -, rfl⟩ := OperationQueue.start_eq_some.mp hs
    refine ⟨start_winding hwinding hx hpending, silent_congr hsilent rfl ?_⟩
    exact OperationQueue.layout_replace hx (by rw [x.start_op]) x.start_dependencies
  | check i =>
    obtain ⟨x, hx, hexecuting, -, rfl⟩ := check_eq_some.mp h
    exact ⟨check_winding hwinding hx hexecuting, silent_congr hsilent rfl rfl⟩
  | body i access =>
    obtain ⟨x, isCancelled, hx, hexecuting, hfound, hu⟩ := body_eq_some.mp h
    exact body_silent hparse hwinding hsilent hx hexecuting hfound hu

def twoSaves : List (OperationProfileManager.Event (Option Data) ProfileFiles.Access) :=
  [.save ⟨"Nick", "Kazantsev", some .empty⟩, .save ⟨"Nikita", "Kazantsev", some .empty⟩]

/-- The report of one save is running, and the first write of another is past its check. -/
def started : List (Event ProfileFiles.Access) := [
  .start 0, .check 0, .body 0 .succeeds, .start 1, .check 1, .body 1 .succeeds,
  .start 2, .check 2, .body 2 .succeeds, .start 3, .start 4, .check 4]

/-- The write goes on, and the report finds itself cancelled. -/
def windingDown : List (Event ProfileFiles.Access) :=
  [.body 4 .succeeds, .start 5, .check 3, .body 3 .succeeds, .start 7]

end TinkoffChat.CancelledQueue

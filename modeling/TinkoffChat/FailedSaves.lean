import TinkoffChat.GCDProfileManager
import Mathlib.Data.List.InsertIdx
import Mathlib.Data.List.Perm.Basic

/-!
What a save that fails leaves in the files. Neither manager undoes a write: each
file holds what its own write left in it, and one whose write operation was
cancelled before it ran holds what it held before. How the write to each file
goes is given once for the file.
-/
namespace TinkoffChat.FailedSaves

open PartialRuns ProfileFiles ProfileTransfers ProfileLoads ProfileReadback

variable {Image : Type*} {kit : UIKit Image} {profile : ProfileViewModel Image}
  {writes : ProfileItemsTags → Access}

section Groups

open GCDProfileManager

variable {s t u : State Files Access}

/-- Blocks run and groups notify; the write to each file goes as given. -/
def Goes (kit : UIKit Image) (profile : ProfileViewModel Image)
    (writes : ProfileItemsTags → Access) (s : State Files Access) : Event Image Access → Prop
  | .save _ => False
  | .queue (.notify _) => True
  | .queue (.run i j access) => ∀ g tag, s.groups[i]? = some g →
      g.blocks[j]? = some (writeOf kit profile tag) → access = writes tag

/-- The group of a save that was made in the first state has the blocks of some tags
left, and the files of the others have been written. -/
structure Writes (kit : UIKit Image) (profile : ProfileViewModel Image)
    (writes : ProfileItemsTags → Access) (s t : State Files Access) : Prop where
  others : ∀ i g, i ≠ s.groups.length → t.groups[i]? = some g → g.blocks = []
  files : ∃ g, t.groups[s.groups.length]? = some g ∧
    ∃ tags : List ProfileItemsTags, g.blocks = tags.map (writeOf kit profile) ∧ tags.Nodup ∧
      ∀ tag, contents t.disk tag =
        if tag ∈ tags then contents s.disk tag else saved kit profile writes (contents s.disk) tag

theorem save_writes (hs : s.Settled) :
    Writes kit profile writes s (s.enter (saveBlocks kit profile)) := by
  constructor
  · intro i g hi hg
    rcases DispatchGroups.group_enter_cases hg with hold | ⟨hlast, -⟩
    · exact (hs g (List.mem_of_getElem? hold)).1
    · exact absurd hlast hi
  · refine ⟨_, List.getElem?_concat_length, [.name, .description, .avatar], rfl, by decide, ?_⟩
    intro tag
    rw [if_pos (by cases tag <;> decide)]
    rfl

/-- The file of the block that runs is written, and no other. -/
theorem run_writes (hs : Writes kit profile writes s t) {i j : ℕ} {access : Access}
    (he : Goes kit profile writes t (.queue (.run i j access)))
    (h : DispatchGroups.step (perform FileUtils) t (.run i j access) = some u) :
    Writes kit profile writes s u := by
  obtain ⟨g, write, hg, hj, rfl⟩ := DispatchGroups.run_eq_some.mp h
  obtain ⟨g', hg', tags, hblocks, hnodup, hfiles⟩ := hs.files
  by_cases hi : i = s.groups.length
  · subst hi
    obtain rfl : g = g' := Option.some.inj (hg.symm.trans hg')
    obtain ⟨tag, htag, rfl⟩ : ∃ tag, tags[j]? = some tag ∧ writeOf kit profile tag = write := by
      rw [hblocks, List.getElem?_map] at hj
      exact Option.map_eq_some_iff.mp hj
    obtain rfl := he g tag hg hj
    obtain ⟨hlt, -⟩ := List.getElem?_eq_some_iff.mp hg
    have hperm : (tag :: tags.eraseIdx j).Perm tags := cons_eraseIdx_perm htag
    obtain ⟨hnot, hnodup'⟩ := List.nodup_cons.mp (hperm.nodup_iff.mpr hnodup)
    constructor
    · intro k g' hk hg'
      rcases DispatchGroups.group_set_cases hg' with ⟨heq, -⟩ | ⟨-, hold⟩
      · exact absurd heq hk
      · exact hs.others k g' hk hold
    · refine ⟨_, List.getElem?_set_self hlt, tags.eraseIdx j, ?_, hnodup', ?_⟩
      · change g.blocks.eraseIdx j = _
        rw [hblocks, List.eraseIdx_map]
      · intro other
        have hdisk : contents (perform FileUtils (writeOf kit profile tag) (writes tag) t.disk).2 =
            Function.update (contents t.disk) tag
              (left (encoding kit profile tag) (writes tag) (contents t.disk tag)) :=
          contents_save _ _ _ _
        have hmem : other ∈ tags ↔ other = tag ∨ other ∈ tags.eraseIdx j := by
          rw [← hperm.mem_iff, List.mem_cons]
        change
          contents (perform FileUtils (writeOf kit profile tag) (writes tag) t.disk).2 other = _
        rw [hdisk]
        by_cases hother : other = tag
        · subst hother
          rw [Function.update_self, hfiles, if_pos (hmem.mpr (Or.inl rfl)), if_neg hnot, saved]
        · rw [Function.update_of_ne hother, hfiles]
          simp only [hmem, hother, false_or]
  · rw [hs.others i g hi hg] at hj
    cases hj

theorem step_writes {e : Event Image Access} (hs : Writes kit profile writes s t)
    (he : Goes kit profile writes t e) (h : step kit FileUtils t e = some u) :
    Writes kit profile writes s u := by
  cases e with
  | save profile => exact absurd he id
  | queue event =>
    cases event with
    | run i j access => exact run_writes hs he h
    | notify i =>
      have hnotify : DispatchGroups.step (perform FileUtils) t (.notify i) = some u := h
      obtain ⟨g, hg, hempty, -, rfl⟩ := DispatchGroups.notify_eq_some.mp hnotify
      obtain ⟨hlt, -⟩ := List.getElem?_eq_some_iff.mp hg
      constructor
      · intro k g' hk hg'
        rcases DispatchGroups.group_set_cases hg' with ⟨-, rfl⟩ | ⟨-, hold⟩
        · exact hempty
        · exact hs.others k g' hk hold
      · obtain ⟨g', hg', tags, hblocks, hrest⟩ := hs.files
        by_cases hi : i = s.groups.length
        · subst hi
          obtain rfl : g = g' := Option.some.inj (hg.symm.trans hg')
          exact ⟨_, List.getElem?_set_self hlt, tags, hblocks, hrest⟩
        · exact ⟨g', (List.getElem?_set_ne hi).trans hg', tags, hblocks, hrest⟩

/-- Once its blocks have run, a save has written all its files. -/
theorem contents_of_writes (hs : Writes kit profile writes s t) (ht : t.Settled) :
    contents t.disk = saved kit profile writes (contents s.disk) := by
  obtain ⟨g, hg, tags, hblocks, -, hfiles⟩ := hs.files
  have hnil : tags = [] := by
    rw [(ht g (List.mem_of_getElem? hg)).1] at hblocks
    exact List.map_eq_nil_iff.mp hblocks.symm
  funext tag
  rw [hfiles, hnil, if_neg List.not_mem_nil]

end Groups

section Operations

open OperationProfileManager

variable {s t u : ProfileQueue Image}

/-- Where a save made in the state has its write operations. -/
def writePlace (s : ProfileQueue Image) : ProfileItemsTags → ℕ
  | .description => s.entries.length
  | .name => s.entries.length + 1
  | .avatar => s.entries.length + 2

/-- Operations run and may be cancelled; the write to each file goes as given. -/
def Runs (writes : ProfileItemsTags → Access) (place : ProfileItemsTags → ℕ) :
    OperationProfileManager.Event Image Access → Prop
  | .operation (.main i access) => ∀ tag, place tag = i → access = writes tag
  | .operation _ => True
  | _ => False

def isCancelledAt (t : ProfileQueue Image) (i : ℕ) : Bool :=
  (t.entries[i]?).any OperationQueue.Entry.isCancelled

/-- The file of a write operation that has not finished is as it was. -/
def Wrote (kit : UIKit Image) (profile : ProfileViewModel Image)
    (writes : ProfileItemsTags → Access) (s t : ProfileQueue Image) (tag : ProfileItemsTags)
    (x : Entry) : Prop :=
  (x.isFinished = false ∧ contents t.env.disk tag = contents s.env.disk tag) ∨
  (x.isFinished = true ∧ contents t.env.disk tag =
    saved kit profile writes (contents s.env.disk) tag) ∨
  (x.isFinished = true ∧ x.isCancelled = true ∧
    contents t.env.disk tag = contents s.env.disk tag)

/-- A save was made in the first state; all that was on the queue before has finished. -/
structure Saves (kit : UIKit Image) (profile : ProfileViewModel Image)
    (writes : ProfileItemsTags → Access) (s t : ProfileQueue Image) : Prop where
  old : ∀ i < s.entries.length, t.isFinishedAt i
  layout_eq : t.layout created = s.layout created ++
    saveOperations kit s.entries.length profile (.caller s.env.calls)
  files : ∀ tag x, t.entries[writePlace s tag]? = some x → Wrote kit profile writes s t tag x

theorem writePlace_inj {a b : ProfileItemsTags} (h : writePlace s a = writePlace s b) : a = b := by
  cases a <;> cases b <;> simp only [writePlace] at h <;> first | rfl | omega

theorem save_saves (hs : s.Drained) :
    Saves kit profile writes s
      (call s (saveOperations kit s.entries.length profile (.caller s.env.calls))) := by
  refine ⟨?_, OperationQueue.layout_addOperations _, ?_⟩
  · intro i hi
    have hx : s.entries[i]? = some s.entries[i] := List.getElem?_eq_getElem hi
    exact OperationQueue.isFinishedAt_iff.mpr
      ⟨_, OperationQueue.entry_addOperations hx, hs _ (List.getElem_mem hi)⟩
  · intro tag x hx
    rcases OperationQueue.entry_addOperations_cases hx with hold | ⟨k, a, -, -, rfl⟩
    · have hold : s.entries[writePlace s tag]? = some x := hold
      obtain ⟨hlt, -⟩ := List.getElem?_eq_some_iff.mp hold
      cases tag <;> simp only [writePlace] at hlt <;> omega
    · exact Or.inl ⟨rfl, rfl⟩

/-- What still runs after a save is one of its writes, or its report. -/
theorem saves_cases (hs : Saves kit profile writes s t) {i : ℕ} {x : Entry}
    (hx : t.entries[i]? = some x) (hlive : x.isFinished = false) :
    (∃ tag success, i = writePlace s tag ∧
      x.op = .writeDataToDisk (encoding kit profile tag) tag.rawValue success) ∨
    ∃ operations completion, x.op = .writeProfile operations completion ∧
      ∀ tag, i ≠ writePlace s tag := by
  have hi : s.entries.length ≤ i := by
    by_contra hlt
    obtain ⟨y, hy, hdone⟩ := OperationQueue.isFinishedAt_iff.mp (hs.old i (by omega))
    obtain rfl : x = y := Option.some.inj (hx.symm.trans hy)
    rw [hlive] at hdone
    cases hdone
  obtain ⟨a, ha, hcreated⟩ := created_of_layout hs.layout_eq hi hx
  have hwrite (tag : ProfileItemsTags) (h : created x.op =
      writeOperation (encoding kit profile tag) tag) : ∃ success,
        x.op = .writeDataToDisk (encoding kit profile tag) tag.rawValue success := by
    cases hop : x.op <;> rw [hop] at h <;> cases h
    exact ⟨_, rfl⟩
  obtain ⟨k, rfl⟩ := Nat.exists_eq_add_of_le hi
  rw [Nat.add_sub_cancel_left] at ha
  rcases k with _ | _ | _ | _ | k
  · obtain rfl := Option.some.inj ha
    obtain ⟨success, hop⟩ := hwrite .description hcreated
    exact Or.inl ⟨.description, success, rfl, hop⟩
  · obtain rfl := Option.some.inj ha
    obtain ⟨success, hop⟩ := hwrite .name hcreated
    exact Or.inl ⟨.name, success, rfl, hop⟩
  · obtain rfl := Option.some.inj ha
    obtain ⟨success, hop⟩ := hwrite .avatar hcreated
    exact Or.inl ⟨.avatar, success, rfl, hop⟩
  · obtain rfl := Option.some.inj ha
    right
    cases hop : x.op <;> rw [hop] at hcreated <;> cases hcreated
    refine ⟨_, _, rfl, fun tag => ?_⟩
    cases tag <;> simp only [writePlace] <;> omega
  · simp [saveOperations] at ha

/-- Replacing an entry by one of the same operation leaves the files as they are. -/
theorem replace_saves (hs : Saves kit profile writes s t) {i : ℕ} {x y : Entry}
    (hx : t.entries[i]? = some x) (hop : y.op = x.op)
    (hdependencies : y.dependencies = x.dependencies)
    (hfinished : x.isFinished = true → y = x)
    (hcancelled : y.isFinished = true → x.isFinished = false → y.isCancelled = true) :
    Saves kit profile writes s (t.replace i y) := by
  have hdisk : (t.replace i y).env = t.env := rfl
  refine ⟨?_, ?_, ?_⟩
  · intro k hk
    obtain ⟨z, hz, hdone⟩ := OperationQueue.isFinishedAt_iff.mp (hs.old k hk)
    by_cases hik : i = k
    · subst hik
      obtain rfl : x = z := Option.some.inj (hx.symm.trans hz)
      rw [hfinished hdone]
      exact OperationQueue.isFinishedAt_iff.mpr ⟨x, OperationQueue.entry_replace_self hx, hdone⟩
    · exact OperationQueue.isFinishedAt_iff.mpr
        ⟨z, (OperationQueue.entry_replace_of_ne hik).trans hz, hdone⟩
  · exact (OperationQueue.layout_replace hx (by rw [hop]) hdependencies).trans hs.layout_eq
  · intro tag z hz
    rcases OperationQueue.entry_replace_cases hz with ⟨htag, rfl⟩ | ⟨-, hold⟩
    · have hwrote := hs.files tag x (htag ▸ hx)
      cases hx' : x.isFinished with
      | true =>
        rw [hfinished hx']
        exact hwrote
      | false =>
        rcases hwrote with ⟨-, hsame⟩ | ⟨hdone, -⟩ | ⟨hdone, -⟩
        · cases hy : z.isFinished with
          | false => exact Or.inl ⟨hy, hsame⟩
          | true => exact Or.inr (Or.inr ⟨hy, hcancelled hy hx', hsame⟩)
        · rw [hx'] at hdone
          cases hdone
        · rw [hx'] at hdone
          cases hdone
    · exact hs.files tag z hold

/-- The main of a write operation that is not cancelled writes its file. -/
theorem main_wrote (hs : Saves kit profile writes s t) {i : ℕ} {x : Entry} {access : Access}
    (hx : t.entries[i]? = some x) (hlive : x.isFinished = false) {tag : ProfileItemsTags}
    (htag : writePlace s tag = i) (haccess : access = writes tag) :
    let out := main kit FileUtils t.entries i x access t.env
    Wrote kit profile writes s (t.finish i x out) tag { x with op := out.op, phase := .done } := by
  intro out
  have hfinish : (t.finish i x out).env = out.env := rfl
  obtain ⟨success, hop⟩ : ∃ success,
      x.op = .writeDataToDisk (encoding kit profile tag) tag.rawValue success := by
    rcases saves_cases hs hx hlive with ⟨tag', success, hi, hwrite⟩ | ⟨-, -, -, hnot⟩
    · obtain rfl := writePlace_inj (htag.trans hi)
      exact ⟨success, hwrite⟩
    · exact absurd htag.symm (hnot tag)
  have hsame : contents t.env.disk tag = contents s.env.disk tag := by
    rcases hs.files tag x (htag ▸ hx) with ⟨-, hsame⟩ | ⟨hdone, -⟩ | ⟨-, -, hsame⟩
    · exact hsame
    · rw [hlive] at hdone
      cases hdone
    · exact hsame
  cases hcancelled : x.isCancelled with
  | true =>
    have hout : out.env = t.env := by simp [out, main, hop, hcancelled]
    refine Or.inr (Or.inr ⟨rfl, rfl, ?_⟩)
    rw [hfinish, hout]
    exact hsame
  | false =>
    have hmain : out = _ := main_write hcancelled hop
    have hout : out.env.disk =
        (FileUtils.save (encoding kit profile tag) tag.rawValue access t.env.disk).2 :=
      congrArg (fun out => out.env.disk) hmain
    refine Or.inr (Or.inl ⟨rfl, ?_⟩)
    rw [hfinish, hout, contents_save, Function.update_self, haccess, hsame, saved]

/-- The main of an operation leaves the files of the other operations as they are. -/
theorem main_other (hs : Saves kit profile writes s t) {i : ℕ} {x : Entry} {access : Access}
    (hx : t.entries[i]? = some x) (hlive : x.isFinished = false) {tag : ProfileItemsTags}
    (htag : writePlace s tag ≠ i) :
    contents (main kit FileUtils t.entries i x access t.env).env.disk tag =
      contents t.env.disk tag := by
  rcases saves_cases hs hx hlive with
    ⟨tag', success, hi, hwrite⟩ | ⟨operations, completion, hreport, -⟩
  · have hother : tag ≠ tag' := by
      rintro rfl
      exact htag hi.symm
    cases hcancelled : x.isCancelled with
    | true => simp only [main, hwrite, hcancelled, if_true]
    | false =>
      rw [main_write hcancelled hwrite]
      simp only [contents_save, Function.update_of_ne hother]
  · have hnot : ¬ IsWrite x.op := by
      rw [hreport]
      exact id
    rw [main_disk hnot]

/-- What a main does to the files of a save. -/
theorem finish_saves (hs : Saves kit profile writes s t) {i : ℕ} {x : Entry} {access : Access}
    (hx : t.entries[i]? = some x) (hexecuting : x.phase = .executing)
    (he : ∀ tag, writePlace s tag = i → access = writes tag) :
    Saves kit profile writes s
      (t.finish i x (main kit FileUtils t.entries i x access t.env)) := by
  have hlive := OperationQueue.Entry.not_finished_of_executing hexecuting
  have hadded : (main kit FileUtils t.entries i x access t.env).added = [] := by
    apply main_added_nil
    intro n d a completion hop
    rcases saves_cases hs hx hlive with
      ⟨tag, success, -, hwrite⟩ | ⟨operations, completion, hreport, -⟩
    · rw [hop] at hwrite
      cases hwrite
    · rw [hop] at hreport
      cases hreport
  refine ⟨?_, ?_, ?_⟩
  · intro k hk
    obtain ⟨z, hz, hdone⟩ := OperationQueue.isFinishedAt_iff.mp (hs.old k hk)
    have hik : i ≠ k := by
      rintro rfl
      obtain rfl : x = z := Option.some.inj (hx.symm.trans hz)
      rw [hlive] at hdone
      cases hdone
    exact OperationQueue.isFinishedAt_iff.mpr ⟨z, OperationQueue.entry_finish_of_ne hz hik, hdone⟩
  · rw [OperationQueue.layout_finish hx (created_main ..), hadded]
    exact (List.append_nil _).trans hs.layout_eq
  · intro tag z hz
    rcases OperationQueue.entry_finish_cases hz with ⟨htag, rfl⟩ | ⟨hne, hold⟩ | ⟨k, a, -, ha, -⟩
    · exact main_wrote hs hx hlive htag (he tag htag)
    · have hfile : contents (t.finish i x (main kit FileUtils t.entries i x access t.env)).env.disk
          tag = contents t.env.disk tag := main_other hs hx hlive hne
      rw [Wrote, hfile]
      exact hs.files tag z hold
    · rw [hadded] at ha
      cases ha

theorem step_saves {e : OperationProfileManager.Event Image Access}
    (hs : Saves kit profile writes s t) (he : Runs writes (writePlace s) e)
    (h : OperationProfileManager.step kit FileUtils t e = some u) :
    Saves kit profile writes s u := by
  cases e with
  | save profile => exact absurd he id
  | read => exact absurd he id
  | readProfile => exact absurd he id
  | operation event =>
    rw [step_operation] at h
    cases event with
    | cancel i =>
      obtain ⟨x, hx, rfl⟩ := OperationQueue.cancel_eq_some.mp h
      refine replace_saves hs hx x.cancel_op x.cancel_dependencies ?_ ?_
      · intro hdone
        rw [OperationQueue.Entry.cancel, if_pos hdone]
      · intro hdone hlive
        rw [OperationQueue.Entry.isFinished, x.cancel_phase] at hdone
        rw [OperationQueue.Entry.isFinished, hdone] at hlive
        cases hlive
    | start i =>
      obtain ⟨x, hx, hpending, -, rfl⟩ := OperationQueue.start_eq_some.mp h
      refine replace_saves hs hx x.start_op x.start_dependencies ?_ ?_
      · intro hdone
        rw [OperationQueue.Entry.not_finished_of_pending hpending] at hdone
        cases hdone
      · intro hdone _
        rw [x.start_isFinished] at hdone
        exact hdone
    | main i access =>
      obtain ⟨x, hx, hexecuting, rfl⟩ := OperationQueue.main_eq_some.mp h
      exact finish_saves hs hx hexecuting he

theorem saves_of_run {called : ProfileQueue Image}
    {es : List (OperationProfileManager.Event Image Access)} (hs : s.Drained)
    (hcall : OperationProfileManager.step kit FileUtils s (.save profile) = some called)
    (hes : ∀ e ∈ es, Runs writes (writePlace s) e)
    (hrun : run (OperationProfileManager.step kit FileUtils) called es = some t) :
    Saves kit profile writes s t := by
  obtain rfl := Option.some.inj hcall
  exact run_invariant_along (fun _ _ _ hs he h => step_saves hs he h) (save_saves hs)
    (along_of_forall_mem (fun e he _ => hes e he) _) hrun

/-- Once its operations have finished, a save has written all its files but those whose
write was cancelled, which are as they were. -/
theorem contents_of_saves (hs : Saves kit profile writes s t) (ht : t.Drained)
    (tag : ProfileItemsTags) :
    contents t.env.disk tag = saved kit profile writes (contents s.env.disk) tag ∨
      isCancelledAt t (writePlace s tag) = true ∧
        contents t.env.disk tag = contents s.env.disk tag := by
  have hlength := congrArg List.length hs.layout_eq
  simp only [OperationQueue.State.layout, List.length_append, List.length_map] at hlength
  have hlt : writePlace s tag < t.entries.length := by
    rw [hlength]
    cases tag <;> simp [writePlace, saveOperations]
  have hx : t.entries[writePlace s tag]? = some t.entries[writePlace s tag] :=
    List.getElem?_eq_getElem hlt
  rcases hs.files tag _ hx with ⟨hlive, -⟩ | ⟨-, hsaved⟩ | ⟨-, hcancelled, hsame⟩
  · rw [ht _ (List.getElem_mem hlt)] at hlive
    cases hlive
  · exact Or.inl hsaved
  · refine Or.inr ⟨?_, hsame⟩
    rw [isCancelledAt, hx, Option.any_some]
    exact hcancelled

end Operations

/-- Once all blocks of a save over the global queue have run, the files hold what its writes
left in them, whatever it reported. -/
theorem contents_of_group_save {s called t : GCDProfileManager.State Files Access}
    {es : List (GCDProfileManager.Event Image Access)}
    (hcall : GCDProfileManager.step kit FileUtils s (.save profile) = some called)
    (hs : s.Settled) (hes : Along (GCDProfileManager.step kit FileUtils) (Goes kit profile writes)
      called es)
    (hrun : run (GCDProfileManager.step kit FileUtils) called es = some t) (ht : t.Settled) :
    contents t.disk = saved kit profile writes (contents s.disk) := by
  obtain rfl := Option.some.inj hcall
  exact contents_of_writes
    (run_invariant_along (fun _ _ _ hs he h => step_writes hs he h) (save_writes hs) hes hrun) ht

/-- A save by either manager that reports a failure has not been undone: the files hold
what its writes left in them, or, where a write operation was cancelled before it ran,
what they held before. -/
theorem files_of_failed_save (kit : UIKit Image) (profile : ProfileViewModel Image)
    (writes : ProfileItemsTags → Access) :
    (∀ (s called t : GCDProfileManager.State Files Access)
        (es : List (GCDProfileManager.Event Image Access)),
      s.Settled → GCDProfileManager.step kit FileUtils s (.save profile) = some called →
        Along (GCDProfileManager.step kit FileUtils) (Goes kit profile writes) called es →
          run (GCDProfileManager.step kit FileUtils) called es = some t → t.Settled →
            (s.groups.length, false) ∈ t.completions →
              contents t.disk = saved kit profile writes (contents s.disk)) ∧
    ∀ (s called t : ProfileQueue Image)
        (es : List (OperationProfileManager.Event Image Access)),
      s.Drained → OperationProfileManager.step kit FileUtils s (.save profile) = some called →
        (∀ e ∈ es, Runs writes (writePlace s) e) →
          run (OperationProfileManager.step kit FileUtils) called es = some t → t.Drained →
            (s.env.calls, .saved false) ∈ t.env.answers → ∀ tag,
              contents t.env.disk tag = saved kit profile writes (contents s.env.disk) tag ∨
                isCancelledAt t (writePlace s tag) = true ∧
                  contents t.env.disk tag = contents s.env.disk tag := by
  -- what the files hold does not depend on what was reported
  constructor
  · intro s called t es hs hcall hes hrun ht _
    exact contents_of_group_save hcall hs hes hrun ht
  · intro s called t es hs hcall hes hrun ht _ tag
    exact contents_of_saves (saves_of_run hs hcall hes hrun) ht tag

/-- The description cannot be written. -/
def unwritable : ProfileItemsTags → Access
  | .description => .fails none
  | _ => .succeeds

/-- The name and the avatar are written, then the description is not. -/
def groupRun : List (GCDProfileManager.Event (Option Data) Access) :=
  [.queue (.run 0 0 .succeeds), .queue (.run 0 1 .succeeds), .queue (.run 0 0 (.fails none)),
    .queue (.notify 0)]

def operationRun : List (OperationProfileManager.Event (Option Data) Access) :=
  [.operation (.start 0), .operation (.main 0 (.fails none)), .operation (.start 1),
    .operation (.main 1 .succeeds), .operation (.start 2), .operation (.main 2 .succeeds),
    .operation (.start 3), .operation (.main 3 .succeeds)]

theorem files_of_failed_save_unwritable :
    (∃ t : GCDProfileManager.State Files Access,
      (GCDProfileManager.step plainKit FileUtils (.new fun _ => none)
        (.save (withAvatar (some .empty)))).bind (fun called =>
          run (GCDProfileManager.step plainKit FileUtils) called groupRun) = some t ∧
        contents t.disk = saved plainKit (withAvatar (some .empty)) unwritable fun _ => none) ∧
    ∃ t : ProfileQueue (Option Data),
      (OperationProfileManager.step plainKit FileUtils fresh
        (.save (withAvatar (some .empty)))).bind (fun called =>
          run (OperationProfileManager.step plainKit FileUtils) called operationRun) = some t ∧
        ∀ tag, contents t.env.disk tag =
          saved plainKit (withAvatar (some .empty)) unwritable (fun _ => none) tag ∨
            isCancelledAt t (writePlace fresh tag) = true ∧ contents t.env.disk tag = none := by
  obtain ⟨hgroups, hoperations⟩ :=
    files_of_failed_save plainKit (withAvatar (some .empty)) unwritable
  refine ⟨⟨_, rfl, hgroups (.new fun _ => none) _ _ groupRun ?_ rfl ?_ rfl ?_ ?_⟩,
    ⟨_, rfl, hoperations fresh _ _ operationRun fresh_drained rfl ?_ rfl ?_ ?_⟩⟩
  · intro g hg
    cases hg
  · refine (along_cons_of_step rfl).mpr ⟨?_, (along_cons_of_step rfl).mpr ⟨?_,
      (along_cons_of_step rfl).mpr ⟨?_, (along_cons_of_step rfl).mpr ⟨trivial, trivial⟩⟩⟩⟩
    all_goals
      rintro g tag ⟨⟩ hblock
      have hfile := congrArg (Option.map GCDProfileManager.Write.fileName) hblock
      cases tag
    all_goals first | rfl | exact absurd hfile (by decide)
  · intro g hg
    obtain rfl := List.mem_singleton.mp hg
    exact ⟨rfl, rfl⟩
  · exact List.mem_singleton.mpr rfl
  · intro e he
    simp only [operationRun, List.mem_cons, List.not_mem_nil, or_false] at he
    rcases he with rfl | rfl | rfl | rfl | rfl | rfl | rfl | rfl
    all_goals try trivial
    all_goals
      intro tag htag
      cases tag
    all_goals first | rfl | cases htag
  · unfold OperationQueue.State.Drained
    decide
  · exact List.mem_singleton.mpr rfl

/-- The description was not written, and the name was. -/
theorem not_unchanged :
    (¬ ∀ (s called t : GCDProfileManager.State Files Access)
        (es : List (GCDProfileManager.Event (Option Data) Access)),
      s.Settled → GCDProfileManager.step plainKit FileUtils s
          (.save (withAvatar (some .empty))) = some called →
        run (GCDProfileManager.step plainKit FileUtils) called es = some t → t.Settled →
          (s.groups.length, false) ∈ t.completions → contents t.disk = contents s.disk) ∧
    ¬ ∀ (s called t : ProfileQueue (Option Data))
        (es : List (OperationProfileManager.Event (Option Data) Access)),
      s.Drained → OperationProfileManager.step plainKit FileUtils s
          (.save (withAvatar (some .empty))) = some called →
        run (OperationProfileManager.step plainKit FileUtils) called es = some t → t.Drained →
          (s.env.calls, .saved false) ∈ t.env.answers →
            contents t.env.disk = contents s.env.disk := by
  constructor
  · intro h
    have hsame := h (.new fun _ => none) _ _ groupRun
      (fun g hg => absurd hg List.not_mem_nil) rfl rfl
      (fun g hg => by obtain rfl := List.mem_singleton.mp hg; exact ⟨rfl, rfl⟩)
      (List.mem_singleton.mpr rfl)
    cases congrFun hsame .name
  · intro h
    have hsame := h fresh _ _ operationRun fresh_drained rfl rfl
      (by unfold OperationQueue.State.Drained; decide) (List.mem_singleton.mpr rfl)
    cases congrFun hsame .name

end TinkoffChat.FailedSaves

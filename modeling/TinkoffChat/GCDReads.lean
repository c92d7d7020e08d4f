import TinkoffChat.GCDUserDataStore

/-!
What a read over the global queue delivers. Its block takes the files one by one
while other blocks write them, so the three parts of a profile may come from
different saves. Each part is what its file gave at the moment the block took it, and
the moments come in the order name, description, avatar.
-/
namespace TinkoffChat.GCDReads

open PartialRuns ProfileFiles GCDUserDataStore
open OperationProfileManager (Answer SaveCompletion ReadCompletion initialProfile defaultProfile)

variable {Image Disk Access : Type*}

/-- The profile in what the three files gave; the avatar may be missing. -/
def delivered (kit : UIKit Image) (c : Contents) : Option (ProfileViewModel Image) :=
  ((c .name).bind string).bind fun name =>
    ((c .description).bind string).map fun description =>
      ⟨name, description, ((c .avatar).bind kit.image).getD kit.blank⟩

theorem read_eq_delivered (kit : UIKit Image) (fileManager : FileUtilsManager Disk Access)
    (access : ProfileItemsTags → Access) (disk : Disk) :
    GCDProfileManager.read kit fileManager access disk =
      delivered kit fun tag => fileManager.read tag.rawValue (access tag) disk := by
  simp only [GCDProfileManager.read, delivered]
  cases fileManager.read ProfileItemsTags.name.rawValue (access .name) disk with
  | none => rfl
  | some nameData =>
    cases fileManager.read ProfileItemsTags.description.rawValue (access .description) disk with
    | none => cases hname : string nameData <;> simp [hname]
    | some descriptionData =>
      cases hname : string nameData <;> cases hdescription : string descriptionData <;>
        simp [hname, hdescription]

theorem delivered_eq_none_iff {kit : UIKit Image} {c : Contents} : delivered kit c = none ↔
    (c .name).bind string = none ∨ (c .description).bind string = none := by
  rw [delivered]
  cases (c .name).bind string with
  | none => simp
  | some name => simp

/-- What the call's read gave, if the answer is one to a read. -/
def result : Answer Image → Option (Option (ProfileViewModel Image))
  | .saved _ => none
  | .read profile => some profile
  | .loaded profile => some (some profile)
  | .defaulted _ => some none

def saveCall : SaveCompletion → ℕ
  | .caller call => call
  | .saveDefault call => call

def readCall : ReadCompletion → ℕ
  | .caller call => call
  | .userDataStore call => call

/-- All that is on its way, or was answered, belongs to one of the first calls. -/
structure Numbered (calls : ℕ) (w : World Image Disk Access) : Prop where
  reads : ∀ block ∈ w.reads, readCall block.completion < calls
  completions : ∀ completion ∈ w.completions, saveCall completion < calls
  answers : ∀ a ∈ w.answers, a.1 < calls

section Numbered

variable {kit : UIKit Image} {fileManager : FileUtilsManager Disk Access}
  {w v : World Image Disk Access} {e : Event Image Access} {calls : ℕ}

theorem Numbered.mono (hw : Numbered calls w) {later : ℕ} (h : calls ≤ later) :
    Numbered later w :=
  ⟨fun block hblock => (hw.reads block hblock).trans_le h,
    fun completion hmem => (hw.completions completion hmem).trans_le h,
    fun a ha => (hw.answers a ha).trans_le h⟩

theorem Numbered.answer (hw : Numbered calls w) {call : ℕ} (h : call < calls)
    (a : Answer Image) : Numbered calls (w.answer call a) := by
  refine ⟨hw.reads, hw.completions, fun b hb => ?_⟩
  rcases List.mem_append.mp hb with hb | hb
  · exact hw.answers b hb
  · obtain rfl := List.mem_singleton.mp hb
    exact h

theorem Numbered.save (hw : Numbered calls w) (profile : ProfileViewModel Image)
    {completion : SaveCompletion} (h : saveCall completion < calls) :
    Numbered calls (w.save kit profile completion) := by
  refine ⟨hw.reads, fun other hmem => ?_, hw.answers⟩
  rcases List.mem_append.mp hmem with hmem | hmem
  · exact hw.completions other hmem
  · obtain rfl := List.mem_singleton.mp hmem
    exact h

theorem Numbered.read (hw : Numbered calls w) {completion : ReadCompletion}
    (h : readCall completion < calls) : Numbered calls (w.read completion) := by
  refine ⟨fun block hblock => ?_, hw.completions, hw.answers⟩
  rcases List.mem_append.mp hblock with hblock | hblock
  · exact hw.reads block hblock
  · obtain rfl := List.mem_singleton.mp hblock
    exact h

theorem Numbered.progressTo (hw : Numbered calls w) {index : ℕ} {block : ReadBlock}
    (hblock : w.reads[index]? = some block) (progress : Progress) :
    Numbered calls (w.progressTo index block progress) := by
  refine ⟨fun other hother => ?_, hw.completions, hw.answers⟩
  rcases List.mem_or_eq_of_mem_set hother with hold | rfl
  · exact hw.reads other hold
  · exact hw.reads block (List.mem_of_getElem? hblock)

theorem Numbered.completeSave (hw : Numbered calls w) (success : Bool)
    {completion : SaveCompletion} (h : saveCall completion < calls) :
    Numbered calls (w.completeSave kit success completion) := by
  cases completion with
  | caller call => exact hw.answer h _
  | saveDefault call =>
    have hprofile : Numbered calls
        ({ w with profile := some (defaultProfile kit) } : World Image Disk Access) :=
      ⟨hw.reads, hw.completions, hw.answers⟩
    exact hprofile.answer h _

theorem Numbered.completeRead (hw : Numbered calls w) (profile : Option (ProfileViewModel Image))
    {completion : ReadCompletion} (h : readCall completion < calls) :
    Numbered calls (w.completeRead kit profile completion) := by
  cases completion with
  | caller call => exact hw.answer h _
  | userDataStore call =>
    cases profile with
    | none => exact hw.save _ h
    | some profile =>
      have hprofile : Numbered calls
          ({ w with profile := some profile } : World Image Disk Access) :=
        ⟨hw.reads, hw.completions, hw.answers⟩
      exact hprofile.answer h _

theorem step_numbered (hw : Numbered w.calls w) (h : step kit fileManager w e = some v) :
    Numbered v.calls v := by
  by_cases he : e.IsCall
  · have hlater := hw.mono (Nat.le_succ w.calls)
    have hcalled : ∀ {u : World Image Disk Access}, Numbered (w.calls + 1) u →
        Numbered (w.calls + 1) u.call := fun hu => ⟨hu.reads, hu.completions, hu.answers⟩
    cases e with
    | save profile =>
      obtain rfl := Option.some.inj h
      exact hcalled (hlater.save profile (Nat.lt_succ_self _))
    | read =>
      obtain rfl := Option.some.inj h
      exact hcalled (hlater.read (Nat.lt_succ_self _))
    | readProfile =>
      obtain rfl := Option.some.inj h
      exact hcalled (hlater.read (Nat.lt_succ_self _))
    | queue event => exact absurd he id
    | readFile index access => exact absurd he id
  · have hmanager : ∀ manager, Numbered w.calls
        ({ w with manager := manager } : World Image Disk Access) := fun _ =>
      ⟨hw.reads, hw.completions, hw.answers⟩
    rcases step_cases he h with ⟨group, j, access, manager, -, rfl⟩ |
      ⟨group, manager, g, completion, -, -, hcompletion, rfl⟩ |
      ⟨index, access, block, next, hblock, -, ⟨progress, -, rfl⟩ | ⟨profile, -, rfl⟩⟩
    · exact hmanager manager
    · rw [completeSave_calls]
      exact (hmanager manager).completeSave _
        (hw.completions completion (List.mem_of_getElem? hcompletion))
    · exact hw.progressTo hblock progress
    · rw [completeRead_calls]
      exact (hw.progressTo hblock .ended).completeRead profile
        (hw.reads block (List.mem_of_getElem? hblock))

theorem reachable_numbered {kit : UIKit Image} {disk : Disk}
    (h : Reachable (step kit fileManager) (World.init kit disk) w) : Numbered w.calls w := by
  refine @reachable_invariant _ _ (step kit fileManager) (fun u => Numbered u.calls u) _ _ ?_
    (fun _ _ _ hs h => step_numbered hs h) h
  exact ⟨by rintro _ ⟨⟩, by rintro _ ⟨⟩, by rintro _ ⟨⟩⟩

end Numbered

variable (kit : UIKit Image) (fileManager : FileUtilsManager Disk Access)
  (w : World Image Disk Access)

/-- The file that a block takes next. -/
def nextFile : Progress → Option ProfileItemsTags
  | .waiting => some .name
  | .named _ => some .description
  | .described _ _ => some .avatar
  | .ended => none

/-- At the place m of the run the block takes the file of the tag, which gives d. -/
def Takes (es : List (Event Image Access)) (index : ℕ) (tag : ProfileItemsTags) (m : ℕ)
    (d : Option Data) : Prop :=
  ∃ access u block, es[m]? = some (.readFile index access) ∧
    run (step kit fileManager) w (es.take m) = some u ∧
    u.reads[index]? = some block ∧ nextFile block.progress = some tag ∧
    fileManager.read tag.rawValue access u.manager.disk = d

/-- The block has taken the name, then the description if there was a name, then the avatar
if these make a profile, and the profile is made of what the files gave. -/
def Observed (es : List (Event Image Access)) (index : ℕ)
    (profile : Option (ProfileViewModel Image)) : Prop :=
  ∃ (c : Contents) (moment : ProfileItemsTags → ℕ),
    profile = delivered kit c ∧
    Takes kit fileManager w es index .name (moment .name) (c .name) ∧
    (c .name ≠ none → moment .name < moment .description ∧
      Takes kit fileManager w es index .description (moment .description) (c .description)) ∧
    (profile ≠ none → moment .description < moment .avatar ∧
      Takes kit fileManager w es index .avatar (moment .avatar) (c .avatar))

/-- The parts that a block has got were in their files when it took them. -/
def Holds (es : List (Event Image Access)) (index : ℕ) : Progress → Prop
  | .waiting => True
  | .named nameData => ∃ i, Takes kit fileManager w es index .name i (some nameData)
  | .described name description => ∃ i j nameData descriptionData,
      Takes kit fileManager w es index .name i (some nameData) ∧
      Takes kit fileManager w es index .description j (some descriptionData) ∧ i < j ∧
      string nameData = some name ∧ string descriptionData = some description
  | .ended => True

/-- A read of the call has been seen to give the profile. -/
def Seen (es : List (Event Image Access)) (v : World Image Disk Access) (call : ℕ)
    (profile : Option (ProfileViewModel Image)) : Prop :=
  ∃ (index : ℕ) (block : ReadBlock), v.reads[index]? = some block ∧
    readCall block.completion = call ∧ Observed kit fileManager w es index profile

/-- What the reads called since the first state have taken and given. -/
structure Reads (es : List (Event Image Access)) (v : World Image Disk Access) : Prop where
  calls_le : w.calls ≤ v.calls
  holds : ∀ (index : ℕ) (block : ReadBlock), v.reads[index]? = some block →
    w.calls ≤ readCall block.completion → Holds kit fileManager w es index block.progress
  defaults : ∀ call, .saveDefault call ∈ v.completions → w.calls ≤ call →
    Seen kit fileManager w es v call none
  answers : ∀ a ∈ v.answers, w.calls ≤ a.1 → ∀ profile, result a.2 = some profile →
    Seen kit fileManager w es v a.1 profile

variable {kit fileManager w} {es : List (Event Image Access)} {t v : World Image Disk Access}
  {e : Event Image Access} {index m call : ℕ} {tag : ProfileItemsTags} {d : Option Data}
  {block : ReadBlock} {progress : Progress} {profile : Option (ProfileViewModel Image)}

theorem Takes.append (h : Takes kit fileManager w es index tag m d)
    (fs : List (Event Image Access)) : Takes kit fileManager w (es ++ fs) index tag m d := by
  obtain ⟨access, u, block, he, hu, hrest⟩ := h
  have hlt : m < es.length := (List.getElem?_eq_some_iff.mp he).1
  refine ⟨access, u, block, (List.getElem?_append_left hlt).trans he, ?_, hrest⟩
  rw [List.take_append_of_le_length (Nat.le_of_lt hlt)]
  exact hu

theorem Takes.lt_length (h : Takes kit fileManager w es index tag m d) : m < es.length := by
  obtain ⟨access, u, block, he, -⟩ := h
  exact (List.getElem?_eq_some_iff.mp he).1

theorem takes_last (h : run (step kit fileManager) w es = some t)
    (hblock : t.reads[index]? = some block) (htag : nextFile block.progress = some tag)
    (access : Access) :
    Takes kit fileManager w (es ++ [.readFile index access]) index tag es.length
      (fileManager.read tag.rawValue access t.manager.disk) := by
  refine ⟨access, t, block, List.getElem?_concat_length, ?_, hblock, htag, rfl⟩
  rw [List.take_left]
  exact h

theorem Observed.append (h : Observed kit fileManager w es index profile)
    (fs : List (Event Image Access)) : Observed kit fileManager w (es ++ fs) index profile := by
  obtain ⟨c, moment, hprofile, hname, hdescription, havatar⟩ := h
  refine ⟨c, moment, hprofile, hname.append fs, fun hc => ?_, fun hp => ?_⟩
  · exact (hdescription hc).imp_right fun htakes => htakes.append fs
  · exact (havatar hp).imp_right fun htakes => htakes.append fs

theorem Holds.append (h : Holds kit fileManager w es index progress)
    (fs : List (Event Image Access)) : Holds kit fileManager w (es ++ fs) index progress := by
  cases progress with
  | waiting => trivial
  | named nameData =>
    obtain ⟨i, hi⟩ := h
    exact ⟨i, hi.append fs⟩
  | described name description =>
    obtain ⟨i, j, nameData, descriptionData, hi, hj, hle, hdata⟩ := h
    exact ⟨i, j, nameData, descriptionData, hi.append fs, hj.append fs, hle, hdata⟩
  | ended => trivial

/-- A block that finds no name has observed all it needs. -/
theorem observed_first (htakes : Takes kit fileManager w es index .name m none) :
    Observed kit fileManager w es index none :=
  ⟨fun _ => none, fun _ => m, rfl, htakes, fun hc => absurd rfl hc, fun hp => absurd rfl hp⟩

/-- One that finds a name, and a description that makes no profile with it. -/
theorem observed_second {i j : ℕ} {nameData : Data}
    (hi : Takes kit fileManager w es index .name i (some nameData))
    (hj : Takes kit fileManager w es index .description j d) (hlt : i < j)
    (hnot : string nameData = none ∨ d.bind string = none) :
    Observed kit fileManager w es index none := by
  have hnone : delivered kit (fun
      | .name => some nameData
      | _ => d) = none := delivered_eq_none_iff.mpr hnot
  exact ⟨_, fun
    | .name => i
    | _ => j, hnone.symm, hi, fun _ => ⟨hlt, hj⟩, fun hp => absurd rfl hp⟩

/-- One that takes all three files. -/
theorem observed_third {i j : ℕ} {d' d'' : Option Data}
    (hi : Takes kit fileManager w es index .name i d)
    (hj : Takes kit fileManager w es index .description j d') (hij : i < j)
    (hm : Takes kit fileManager w es index .avatar m d'') (hjm : j < m) :
    Observed kit fileManager w es index
      (delivered kit fun
        | .name => d
        | .description => d'
        | .avatar => d'') :=
  ⟨_, fun
    | .name => i
    | .description => j
    | .avatar => m, rfl, hi, fun _ => ⟨hij, hj⟩, fun _ => ⟨hjm, hm⟩⟩

/-- A block that goes on holds what the file gave. -/
theorem readFile_holds (h : run (step kit fileManager) w es = some t) {access : Access}
    {next : Progress} (hblock : t.reads[index]? = some block)
    (hholds : Holds kit fileManager w es index block.progress)
    (hnext : readFile kit fileManager access t.manager.disk block.progress = some (.inl next)) :
    Holds kit fileManager w (es ++ [.readFile index access]) index next := by
  have htakes (tag : ProfileItemsTags) (htag : nextFile block.progress = some tag) :=
    takes_last h hblock htag access
  cases hprogress : block.progress with
  | ended =>
    rw [hprogress] at hnext
    cases hnext
  | waiting =>
    rw [hprogress, readFile] at hnext
    split at hnext <;> cases hnext
    rename_i nameData hname
    exact ⟨es.length, hname ▸ htakes .name (congrArg nextFile hprogress)⟩
  | named nameData =>
    rw [hprogress] at hnext hholds
    obtain ⟨i, hi⟩ := hholds
    rw [readFile] at hnext
    split at hnext
    · rename_i descriptionData hdescription
      split at hnext <;> cases hnext
      rename_i name description hn hd
      exact ⟨i, es.length, nameData, descriptionData, hi.append _,
        hdescription ▸ htakes .description (congrArg nextFile hprogress), hi.lt_length, hn, hd⟩
    · cases hnext
  | described name description =>
    rw [hprogress] at hnext
    cases hnext

/-- A block that ends delivers what it has observed. -/
theorem readFile_observed (h : run (step kit fileManager) w es = some t) {access : Access}
    (hblock : t.reads[index]? = some block)
    (hholds : Holds kit fileManager w es index block.progress)
    (hnext : readFile kit fileManager access t.manager.disk block.progress =
      some (.inr profile)) :
    Observed kit fileManager w (es ++ [.readFile index access]) index profile := by
  have htakes (tag : ProfileItemsTags) (htag : nextFile block.progress = some tag) :=
    takes_last h hblock htag access
  cases hprogress : block.progress with
  | ended =>
    rw [hprogress] at hnext
    cases hnext
  | waiting =>
    rw [hprogress, readFile] at hnext
    split at hnext <;> cases hnext
    rename_i hname
    exact observed_first (hname ▸ htakes .name (congrArg nextFile hprogress))
  | named nameData =>
    rw [hprogress] at hnext hholds
    obtain ⟨i, hi⟩ := hholds
    have hj := htakes .description (congrArg nextFile hprogress)
    rw [readFile] at hnext
    split at hnext
    · rename_i descriptionData hdescription
      split at hnext <;> cases hnext
      rename_i hnot
      refine observed_second (hi.append _) hj hi.lt_length ?_
      rw [hdescription, Option.bind_some]
      cases hn : string nameData with
      | none => exact Or.inl rfl
      | some name =>
        cases hd : string descriptionData with
        | none => exact Or.inr rfl
        | some description => exact absurd hd (hnot name description hn)
    · rename_i hdescription
      cases hnext
      refine observed_second (hi.append _) hj hi.lt_length (Or.inr ?_)
      rw [hdescription, Option.bind_none]
  | described name description =>
    rw [hprogress] at hnext hholds
    obtain ⟨i, j, nameData, descriptionData, hi, hj, hlt, hn, hd⟩ := hholds
    obtain rfl := Sum.inr.inj (Option.some.inj hnext)
    have hobserved := observed_third (hi.append _) (hj.append _) hlt
      (htakes .avatar (congrArg nextFile hprogress)) hj.lt_length
    simpa only [delivered, Option.bind_some, hn, hd, Option.map_some] using hobserved

/-- Blocks keep their places and whom they answer. -/
def KeepsBlocks (t v : World Image Disk Access) : Prop :=
  ∀ (index : ℕ) (block : ReadBlock), t.reads[index]? = some block →
    ∃ later, v.reads[index]? = some later ∧ later.completion = block.completion

theorem Seen.mono (h : Seen kit fileManager w es t call profile) (hkept : KeepsBlocks t v)
    (fs : List (Event Image Access)) : Seen kit fileManager w (es ++ fs) v call profile := by
  obtain ⟨index, block, hblock, hcall, hobserved⟩ := h
  obtain ⟨later, hlater, hsame⟩ := hkept index block hblock
  exact ⟨index, later, hlater, (congrArg readCall hsame).trans hcall, hobserved.append fs⟩

/-- What changes the blocks only has them hold what they should. -/
theorem Reads.keep (h : Reads kit fileManager w es t) (hkept : KeepsBlocks t v)
    (hcompletions : v.completions = t.completions) (hanswers : v.answers = t.answers)
    (hcalls : t.calls ≤ v.calls) (fs : List (Event Image Access))
    (hholds : ∀ (index : ℕ) (block : ReadBlock), v.reads[index]? = some block →
      w.calls ≤ readCall block.completion →
        Holds kit fileManager w (es ++ fs) index block.progress) :
    Reads kit fileManager w (es ++ fs) v := by
  refine ⟨h.calls_le.trans hcalls, hholds, ?_, ?_⟩
  · intro call hmem hcall
    rw [hcompletions] at hmem
    exact (h.defaults call hmem hcall).mono hkept fs
  · intro a ha hcall profile hprofile
    rw [hanswers] at ha
    exact (h.answers a ha hcall profile hprofile).mono hkept fs

theorem Reads.append (h : Reads kit fileManager w es t) (fs : List (Event Image Access)) :
    Reads kit fileManager w (es ++ fs) t := by
  refine h.keep (fun _ block hblock => ⟨block, hblock, rfl⟩) rfl rfl (Nat.le_refl _) fs ?_
  exact fun index block hblock hcall => (h.holds index block hblock hcall).append fs

theorem Reads.called (h : Reads kit fileManager w es t) : Reads kit fileManager w es t.call :=
  ⟨h.calls_le.trans (Nat.le_succ _), h.holds, h.defaults, h.answers⟩

theorem Reads.answer (h : Reads kit fileManager w es t) {a : Answer Image}
    (ha : w.calls ≤ call → ∀ profile, result a = some profile →
      Seen kit fileManager w es t call profile) :
    Reads kit fileManager w es (t.answer call a) := by
  refine ⟨h.calls_le, h.holds, h.defaults, ?_⟩
  intro b hb hcall profile hprofile
  rcases List.mem_append.mp hb with hb | hb
  · exact h.answers b hb hcall profile hprofile
  · obtain rfl := List.mem_singleton.mp hb
    exact ha hcall profile hprofile

theorem Reads.save (h : Reads kit fileManager w es t) (saved : ProfileViewModel Image)
    {completion : SaveCompletion}
    (hcompletion : ∀ call, completion = .saveDefault call → w.calls ≤ call →
      Seen kit fileManager w es t call none) :
    Reads kit fileManager w es (t.save kit saved completion) := by
  refine ⟨h.calls_le, h.holds, ?_, h.answers⟩
  intro call hmem hcall
  rcases List.mem_append.mp hmem with hmem | hmem
  · exact h.defaults call hmem hcall
  · exact hcompletion call (List.mem_singleton.mp hmem).symm hcall

/-- A new block has taken no file. -/
theorem Reads.read (h : Reads kit fileManager w es t) (completion : ReadCompletion) :
    Reads kit fileManager w es (t.read completion) := by
  have hkept : KeepsBlocks t (t.read completion) := by
    intro index block hblock
    refine ⟨block, ?_, rfl⟩
    exact (List.getElem?_append_left (List.getElem?_eq_some_iff.mp hblock).1).trans hblock
  rw [← List.append_nil es]
  refine h.keep hkept rfl rfl (Nat.le_refl _) [] ?_
  intro index block hblock hcall
  rw [List.append_nil]
  rcases Nat.lt_or_ge index t.reads.length with hlt | hge
  · exact h.holds index block ((List.getElem?_append_left hlt).symm.trans hblock) hcall
  · have hnew := (List.getElem?_append_right hge).symm.trans hblock
    rw [List.getElem?_singleton] at hnew
    split at hnew <;> cases hnew
    trivial

/-- The last step of the run has taken a file for a block. -/
theorem Reads.progressTo (h : Reads kit fileManager w es t) (hblock : t.reads[index]? = some block)
    (hholds : w.calls ≤ readCall block.completion →
      Holds kit fileManager w (es ++ [e]) index progress) :
    Reads kit fileManager w (es ++ [e]) (t.progressTo index block progress) := by
  have hkept : KeepsBlocks t (t.progressTo index block progress) := by
    intro i x hx
    by_cases hi : index = i
    · subst hi
      obtain rfl := Option.some.inj (hblock.symm.trans hx)
      exact ⟨_, List.getElem?_set_self (List.getElem?_eq_some_iff.mp hx).1, rfl⟩
    · exact ⟨x, (List.getElem?_set_ne hi).trans hx, rfl⟩
  refine h.keep hkept rfl rfl (Nat.le_refl _) [e] ?_
  intro i x hx hcall
  by_cases hi : index = i
  · subst hi
    have hset := List.getElem?_set_self (a := ({ block with progress := progress } : ReadBlock))
      (List.getElem?_eq_some_iff.mp hblock).1
    obtain rfl := Option.some.inj (hset.symm.trans hx)
    exact hholds hcall
  · exact (h.holds i x ((List.getElem?_set_ne hi).symm.trans hx) hcall).append [e]

theorem Reads.completeSave (h : Reads kit fileManager w es t) (success : Bool)
    {completion : SaveCompletion} (hmem : completion ∈ t.completions) :
    Reads kit fileManager w es (t.completeSave kit success completion) := by
  cases completion with
  | caller call => exact h.answer fun _ profile hprofile => by cases hprofile
  | saveDefault call =>
    have hprofile : Reads kit fileManager w es
        ({ t with profile := some (defaultProfile kit) } : World Image Disk Access) :=
      ⟨h.calls_le, h.holds, h.defaults, h.answers⟩
    refine hprofile.answer ?_
    rintro hcall _ ⟨⟩
    exact h.defaults call hmem hcall

theorem Reads.completeRead (h : Reads kit fileManager w es t) {completion : ReadCompletion}
    (hseen : w.calls ≤ readCall completion →
      Seen kit fileManager w es t (readCall completion) profile) :
    Reads kit fileManager w es (t.completeRead kit profile completion) := by
  cases completion with
  | caller call =>
    refine h.answer ?_
    rintro hcall _ ⟨⟩
    exact hseen hcall
  | userDataStore call =>
    cases profile with
    | some profile =>
      have hprofile : Reads kit fileManager w es
          ({ t with profile := some profile } : World Image Disk Access) :=
        ⟨h.calls_le, h.holds, h.defaults, h.answers⟩
      refine hprofile.answer ?_
      rintro hcall _ ⟨⟩
      exact hseen hcall
    | none =>
      refine h.save _ ?_
      rintro _ ⟨⟩ hcall
      exact hseen hcall

/-- The next file of a block, and what its completion does when that was the last one. -/
theorem readFile_reads (h : run (step kit fileManager) w es = some t)
    (ht : Reads kit fileManager w es t) {access : Access}
    (hv : step kit fileManager t (.readFile index access) = some v) :
    Reads kit fileManager w (es ++ [.readFile index access]) v := by
  obtain ⟨block, hblock, hrest⟩ := Option.bind_eq_some_iff.mp hv
  obtain ⟨next, hnext, rfl⟩ := Option.map_eq_some_iff.mp hrest
  cases next with
  | inl progress =>
    refine ht.progressTo hblock fun hcall => ?_
    exact readFile_holds h hblock (ht.holds index block hblock hcall) hnext
  | inr profile =>
    have hends : Reads kit fileManager w (es ++ [.readFile index access])
        (t.progressTo index block .ended) := ht.progressTo hblock fun _ => trivial
    refine hends.completeRead fun hcall => ?_
    have hobserved := readFile_observed h hblock (ht.holds index block hblock hcall) hnext
    have hended := List.getElem?_set_self (a := ({ block with progress := .ended } : ReadBlock))
      (List.getElem?_eq_some_iff.mp hblock).1
    exact ⟨index, _, hended, rfl, hobserved⟩

theorem step_reads (h : run (step kit fileManager) w es = some t)
    (ht : Reads kit fileManager w es t) (hv : step kit fileManager t e = some v) :
    Reads kit fileManager w (es ++ [e]) v := by
  have hsame := ht.append [e]
  cases e with
  | save profile =>
    obtain rfl := Option.some.inj hv
    have hsaves : Reads kit fileManager w (es ++ [.save profile])
        (t.save kit profile (.caller t.calls)) := hsame.save profile fun _ heq => by cases heq
    exact hsaves.called
  | read =>
    obtain rfl := Option.some.inj hv
    exact (hsame.read _).called
  | readProfile =>
    obtain rfl := Option.some.inj hv
    exact (hsame.read _).called
  | queue event =>
    have hmanager : ∀ manager, Reads kit fileManager w (es ++ [.queue event])
        ({ t with manager := manager } : World Image Disk Access) := fun _ =>
      ⟨hsame.calls_le, hsame.holds, hsame.defaults, hsame.answers⟩
    cases event with
    | run group block access =>
      obtain ⟨manager, -, rfl⟩ := Option.map_eq_some_iff.mp hv
      exact hmanager manager
    | notify group =>
      obtain ⟨manager, -, hrest⟩ := Option.bind_eq_some_iff.mp hv
      obtain ⟨g, -, hrest⟩ := Option.bind_eq_some_iff.mp hrest
      obtain ⟨completion, hcompletion, rfl⟩ := Option.map_eq_some_iff.mp hrest
      exact (hmanager manager).completeSave _ (List.mem_of_getElem? hcompletion)
  | readFile index access => exact readFile_reads h ht hv

/-- Every read called in a run delivers what its block has taken from the three files, one
after the other, at places of that run. -/
theorem reads_observed {disk : Disk}
    (hw : Reachable (step kit fileManager) (World.init kit disk) w)
    (h : run (step kit fileManager) w es = some v) {a : Answer Image}
    (ha : (call, a) ∈ v.answers) (hcall : w.calls ≤ call) (hresult : result a = some profile) :
    Seen kit fileManager w es v call profile := by
  have hnumbered := reachable_numbered hw
  have hstart : Reads kit fileManager w [] w := by
    refine ⟨Nat.le_refl _, ?_, ?_, ?_⟩
    · intro index block hblock hcall
      have hlt := hnumbered.reads block (List.mem_of_getElem? hblock)
      omega
    · intro call hmem hcall
      have hlt : call < w.calls := hnumbered.completions _ hmem
      omega
    · intro a ha hcall
      have hlt := hnumbered.answers a ha
      omega
  have hreads : Reads kit fileManager w es v :=
    run_history hstart
      (fun _ _ _ _ hrun ht hstep => step_reads hrun ht hstep) h
  exact hreads.answers _ ha hcall profile hresult

/-- A read between the writes of a save, which has not written its avatar yet. -/
def between : List (Event (Option Data) ProfileFiles.Access) := [
  .save ⟨"Nick", "Student", some .empty⟩, .read, .queue (.run 0 0 .succeeds),
  .readFile 0 .succeeds, .queue (.run 0 0 .succeeds), .readFile 0 .succeeds, .readFile 0 .succeeds]

theorem reads_observed_between :
    ∃ v, run (step plainKit FileUtils) (World.init plainKit fun _ => none) between = some v ∧
      Seen plainKit FileUtils (World.init plainKit fun _ => none) between v 1
        (some ⟨"Nick", "Student", none⟩) := by
  obtain ⟨v, hv, hanswers⟩ :
      ∃ v, run (step plainKit FileUtils) (World.init plainKit fun _ => none) between = some v ∧
        v.answers = [(1, .read (some ⟨"Nick", "Student", none⟩))] := ⟨_, rfl, rfl⟩
  refine ⟨v, hv, ?_⟩
  exact reads_observed ⟨[], rfl⟩ hv (hanswers ▸ List.mem_singleton_self _) (Nat.zero_le 1) rfl

section Quiet

def Writes : Event Image Access → Prop
  | .queue (.run _ _ _) => True
  | _ => False

theorem completeSave_disk (success : Bool) (completion : SaveCompletion) :
    (t.completeSave kit success completion).manager.disk = t.manager.disk := by
  cases completion <;> rfl

theorem completeRead_disk (completion : ReadCompletion) :
    (t.completeRead kit profile completion).manager.disk = t.manager.disk := by
  cases completion <;> cases profile <;> rfl

/-- Only the blocks of saves touch the disk. -/
theorem step_disk (he : ¬ Writes e) (h : step kit fileManager t e = some v) :
    v.manager.disk = t.manager.disk := by
  cases e with
  | save profile =>
    obtain rfl := Option.some.inj h
    rfl
  | read =>
    obtain rfl := Option.some.inj h
    rfl
  | readProfile =>
    obtain rfl := Option.some.inj h
    rfl
  | queue event =>
    cases event with
    | run group block access => exact absurd trivial he
    | notify group =>
      obtain ⟨manager, hmanager, hrest⟩ := Option.bind_eq_some_iff.mp h
      obtain ⟨g, -, hrest⟩ := Option.bind_eq_some_iff.mp hrest
      obtain ⟨completion, -, rfl⟩ := Option.map_eq_some_iff.mp hrest
      obtain ⟨g', -, -, -, rfl⟩ := DispatchGroups.notify_eq_some.mp hmanager
      rw [completeSave_disk]
      rfl
  | readFile index access =>
    obtain ⟨block, hblock, hrest⟩ := Option.bind_eq_some_iff.mp h
    obtain ⟨next, hnext, rfl⟩ := Option.map_eq_some_iff.mp hrest
    cases next with
    | inl progress => rfl
    | inr profile =>
      rw [completeRead_disk]
      rfl

theorem run_disk (hes : ∀ e ∈ es, ¬ Writes e) (h : run (step kit fileManager) w es = some v) :
    v.manager.disk = w.manager.disk := by
  have hstep : ∀ t e u, t.manager.disk = w.manager.disk → ¬ Writes e →
      step kit fileManager t e = some u → u.manager.disk = w.manager.disk :=
    fun t e u ht he hu => (step_disk he hu).trans ht
  exact run_invariant_along hstep rfl (along_of_forall_mem (fun e he _ => hes e he) w) h

/-- While nothing is written a read delivers one state of the disk. -/
theorem Observed.quiet (hes : ∀ e ∈ es, ¬ Writes e)
    (h : Observed kit fileManager w es index profile) :
    ∃ access, profile = GCDProfileManager.read kit fileManager access w.manager.disk := by
  obtain ⟨c, moment, hprofile, hname, hdescription, havatar⟩ := h
  have hread {tag m d} (htakes : Takes kit fileManager w es index tag m d) :
      ∃ access, fileManager.read tag.rawValue access w.manager.disk = d := by
    obtain ⟨access, u, block, -, hu, -, -, hd⟩ := htakes
    refine ⟨access, ?_⟩
    rw [← run_disk (fun e he => hes e (List.mem_of_mem_take he)) hu]
    exact hd
  obtain ⟨first, hfirst⟩ := hread hname
  by_cases hc : c .name = none
  · refine ⟨fun _ => first, ?_⟩
    rw [read_eq_delivered, hprofile, delivered_eq_none_iff.mpr (Or.inl ?_),
      delivered_eq_none_iff.mpr (Or.inl ?_)]
    · rw [hfirst, hc, Option.bind_none]
    · rw [hc, Option.bind_none]
  obtain ⟨second, hsecond⟩ := hread (hdescription hc).2
  by_cases hp : profile = none
  · refine ⟨fun
      | .name => first
      | _ => second, ?_⟩
    rw [read_eq_delivered, hp, eq_comm, delivered_eq_none_iff, hfirst, hsecond,
      ← delivered_eq_none_iff, ← hprofile]
    exact hp
  · obtain ⟨third, hthird⟩ := hread (havatar hp).2
    refine ⟨fun
      | .name => first
      | .description => second
      | .avatar => third, ?_⟩
    rw [read_eq_delivered, hprofile]
    congr 1
    funext tag
    cases tag with
    | name => exact hfirst.symm
    | description => exact hsecond.symm
    | avatar => exact hthird.symm

end Quiet

end TinkoffChat.GCDReads

import TinkoffChat.DispatchGroups
import Mathlib.Data.List.Nodup
import Mathlib.Data.List.Perm.Basic

/-!
What the blocks of dispatch groups returned, read back from the log of the
blocks that ran. A group holds the result of the block of its own that ran last
and notifies with it, once and after all of them. So the value it notifies with
tells whether all its blocks succeeded exactly when a group with a failed block
has one as its last.
-/
namespace GroupOutcomes

open PartialRuns DispatchGroups

variable {Block Input Disk : Type*}

/-- The blocks of all groups with what they returned, in the order they ran. -/
def outcomes (perform : Block → Input → Disk → Bool × Disk) :
    Disk → List (ℕ × Block × Input) → List (ℕ × Block × Bool)
  | _, [] => []
  | disk, (i, block, input) :: ran =>
    (i, block, (perform block input disk).1) :: outcomes perform (perform block input disk).2 ran

def after (perform : Block → Input → Disk → Bool × Disk) :
    Disk → List (ℕ × Block × Input) → Disk
  | disk, [] => disk
  | disk, (_, block, input) :: ran => after perform (perform block input disk).2 ran

/-- The blocks of one group with what they returned, since the disk was as given. -/
def returned (perform : Block → Input → Disk → Bool × Disk) (disk : Disk)
    (s : State Block Input Disk) (i : ℕ) : List (Block × Bool) :=
  (outcomes perform disk s.ran).filterMap fun o => if o.1 = i then some o.2 else none

/-- What the variable of a group holds after its blocks returned. -/
def lastResult (results : List (Block × Bool)) : Bool := results.getLast?.elim true Prod.snd

/-- If a block of the group failed then the last to set the variable did. -/
def LastFails (perform : Block → Input → Disk → Bool × Disk) (disk : Disk)
    (s : State Block Input Disk) (i : ℕ) : Prop :=
  (∃ o ∈ returned perform disk s i, o.2 = false) → lastResult (returned perform disk s i) = false

/-- Every completion tells whether all blocks of its group succeeded. -/
def Truthful (perform : Block → Input → Disk → Bool × Disk) (disk : Disk)
    (s : State Block Input Disk) : Prop :=
  ∀ i value, (i, value) ∈ s.completions →
    (value = true ↔ ∀ o ∈ returned perform disk s i, o.2 = true)

structure Bookkeeping (perform : Block → Input → Disk → Bool × Disk) (disk : Disk)
    (s : State Block Input Disk) : Prop where
  disk_eq : s.disk = after perform disk s.ran
  ran_lt : ∀ r ∈ s.ran, r.1 < s.groups.length
  success_eq : ∀ i g, s.groups[i]? = some g → g.success = lastResult (returned perform disk s i)
  notified_iff : ∀ i, i ∈ s.completions.map Prod.fst ↔
    ∃ g, s.groups[i]? = some g ∧ g.notified = true
  notified_empty : ∀ (i : ℕ) (g : DispatchGroups.Group Block), s.groups[i]? = some g →
    g.notified = true → g.blocks = []
  completed_nodup : (s.completions.map Prod.fst).Nodup
  completed_eq : ∀ i value, (i, value) ∈ s.completions →
    value = lastResult (returned perform disk s i)

/-- The blocks that each group entered with have run or are still in it. -/
def Accounts (perform : Block → Input → Disk → Bool × Disk) (disk : Disk)
    (entered : List (List Block)) (s : State Block Input Disk) : Prop :=
  entered.length = s.groups.length ∧ ∀ i g blocks, s.groups[i]? = some g →
    entered[i]? = some blocks → ((returned perform disk s i).map Prod.fst ++ g.blocks).Perm blocks

variable {perform : Block → Input → Disk → Bool × Disk} {disk : Disk}

theorem outcomes_append (ran rest : List (ℕ × Block × Input)) :
    outcomes perform disk (ran ++ rest) =
      outcomes perform disk ran ++ outcomes perform (after perform disk ran) rest := by
  induction ran generalizing disk with
  | nil => rfl
  | cons r ran ih =>
    rw [List.cons_append, outcomes, ih, outcomes, List.cons_append, after]

theorem after_append (ran rest : List (ℕ × Block × Input)) :
    after perform disk (ran ++ rest) = after perform (after perform disk ran) rest := by
  induction ran generalizing disk with
  | nil => rfl
  | cons r ran ih => rw [List.cons_append, after, ih, after]

theorem lastResult_append_singleton (results : List (Block × Bool)) (o : Block × Bool) :
    lastResult (results ++ [o]) = o.2 := by
  rw [lastResult, List.getLast?_concat, Option.elim_some]

theorem lastResult_of_forall {results : List (Block × Bool)} (h : ∀ o ∈ results, o.2 = true) :
    lastResult results = true := by
  cases hlast : results.getLast? with
  | none => rw [lastResult, hlast, Option.elim_none]
  | some o =>
    rw [lastResult, hlast, Option.elim_some]
    exact h o (List.mem_of_getLast? hlast)

variable {s t : State Block Input Disk} {i j k : ℕ} {g : DispatchGroups.Group Block}

theorem returned_of_le (hs : Bookkeeping perform disk s) (h : s.groups.length ≤ i) :
    returned perform disk s i = [] := by
  have hindices (disk : Disk) (ran : List (ℕ × Block × Input)) :
      (outcomes perform disk ran).map Prod.fst = ran.map Prod.fst := by
    induction ran generalizing disk with
    | nil => rfl
    | cons r ran ih => rw [outcomes, List.map_cons, ih, List.map_cons]
  rw [returned, List.filterMap_eq_nil_iff]
  intro o ho
  have hran : o.1 ∈ s.ran.map Prod.fst := hindices disk s.ran ▸ List.mem_map_of_mem ho
  obtain ⟨r, hr, heq⟩ := List.mem_map.mp hran
  have hlt := hs.ran_lt r hr
  rw [if_neg (by omega)]

theorem returned_leave_self (hs : Bookkeeping perform disk s) {b : Block} {input : Input} :
    returned perform disk (s.leave i g j b input (perform b input s.disk)) i =
      returned perform disk s i ++ [(b, (perform b input s.disk).1)] := by
  simp only [returned, State.leave, outcomes_append, List.filterMap_append, hs.disk_eq]
  simp [outcomes]

theorem returned_leave_of_ne {b : Block} {input : Input} {result : Bool × Disk} (h : i ≠ k) :
    returned perform disk (s.leave i g j b input result) k = returned perform disk s k := by
  simp only [returned, State.leave, outcomes_append, List.filterMap_append]
  simp [outcomes, h]

theorem new_bookkeeping (perform : Block → Input → Disk → Bool × Disk) (disk : Disk) :
    Bookkeeping perform disk (State.new disk) where
  disk_eq := rfl
  ran_lt _ hr := absurd hr List.not_mem_nil
  success_eq _ _ hg := by cases hg
  notified_iff i := iff_of_false List.not_mem_nil (by rintro ⟨g, hg, -⟩; cases hg)
  notified_empty _ _ hg := by cases hg
  completed_nodup := List.nodup_nil
  completed_eq _ _ h := absurd h List.not_mem_nil

theorem enter_bookkeeping (hs : Bookkeeping perform disk s) (blocks : List Block) :
    Bookkeeping perform disk (s.enter blocks) where
  disk_eq := hs.disk_eq
  ran_lt r hr := by
    have hlt := hs.ran_lt r hr
    rw [State.enter, List.length_append]
    omega
  success_eq i g hg := by
    rcases group_enter_cases hg with hold | ⟨rfl, rfl⟩
    · exact hs.success_eq i g hold
    · exact congrArg lastResult (returned_of_le hs (Nat.le_refl _)).symm
  notified_iff i := by
    rw [State.enter, hs.notified_iff i]
    constructor
    · rintro ⟨g, hg, hnotified⟩
      exact ⟨g, List.getElem?_append_left (List.getElem?_eq_some_iff.mp hg).1 ▸ hg, hnotified⟩
    · rintro ⟨g, hg, hnotified⟩
      rcases group_enter_cases hg with hold | ⟨-, rfl⟩
      · exact ⟨g, hold, hnotified⟩
      · cases hnotified
  notified_empty i g hg hnotified := by
    rcases group_enter_cases hg with hold | ⟨-, rfl⟩
    · exact hs.notified_empty i g hold hnotified
    · cases hnotified
  completed_nodup := hs.completed_nodup
  completed_eq := hs.completed_eq

/-- A group with a block left has not notified. -/
theorem not_notified (hs : Bookkeeping perform disk s) (hg : s.groups[i]? = some g) {b : Block}
    (hb : g.blocks[j]? = some b) : i ∉ s.completions.map Prod.fst := by
  intro hmem
  obtain ⟨g', hg', hnotified⟩ := (hs.notified_iff i).mp hmem
  obtain rfl := Option.some.inj (hg.symm.trans hg')
  rw [hs.notified_empty i g hg hnotified] at hb
  cases hb

theorem notified_set_iff {groups : List (DispatchGroups.Group Block)}
    {g' : DispatchGroups.Group Block} {flag : Bool} (hg : groups[i]? = some g)
    (hflag : g'.notified = flag) :
    (∃ h, (groups.set i g')[k]? = some h ∧ h.notified = true) ↔
      if k = i then flag = true else ∃ h, groups[k]? = some h ∧ h.notified = true := by
  have hlt := (List.getElem?_eq_some_iff.mp hg).1
  by_cases hk : k = i
  · subst hk
    rw [List.getElem?_set_self hlt, if_pos rfl, ← hflag]
    simp
  · rw [List.getElem?_set_ne (Ne.symm hk), if_neg hk]

theorem leave_bookkeeping (hs : Bookkeeping perform disk s) (hg : s.groups[i]? = some g)
    {b : Block} (hb : g.blocks[j]? = some b) (input : Input) :
    Bookkeeping perform disk (s.leave i g j b input (perform b input s.disk)) where
  disk_eq := by
    simp only [State.leave, after_append, hs.disk_eq, after]
  ran_lt r hr := by
    have hlt := (List.getElem?_eq_some_iff.mp hg).1
    rw [State.leave, List.length_set]
    rcases List.mem_append.mp hr with hr | hr
    · exact hs.ran_lt r hr
    · obtain rfl := List.mem_singleton.mp hr
      exact hlt
  success_eq k g' hg' := by
    rcases group_set_cases hg' with ⟨rfl, rfl⟩ | ⟨hne, hold⟩
    · rw [returned_leave_self hs, lastResult_append_singleton]
    · rw [returned_leave_of_ne (Ne.symm hne)]
      exact hs.success_eq k g' hold
  notified_iff k := by
    rw [State.leave, hs.notified_iff k, notified_set_iff hg rfl]
    split
    · rename_i hk
      subst hk
      rw [hg]
      simp
    · rfl
  notified_empty k g' hg' hnotified := by
    rcases group_set_cases hg' with ⟨rfl, rfl⟩ | ⟨-, hold⟩
    · exact absurd ((hs.notified_iff k).mpr ⟨g, hg, hnotified⟩) (not_notified hs hg hb)
    · exact hs.notified_empty k g' hold hnotified
  completed_nodup := hs.completed_nodup
  completed_eq k value h := by
    have hne : i ≠ k := by
      rintro rfl
      exact not_notified hs hg hb (List.mem_map_of_mem h)
    rw [returned_leave_of_ne hne]
    exact hs.completed_eq k value h

theorem complete_bookkeeping (hs : Bookkeeping perform disk s) (hg : s.groups[i]? = some g)
    (hempty : g.blocks = []) (hnot : g.notified = false) :
    Bookkeeping perform disk (s.complete i g) where
  disk_eq := hs.disk_eq
  ran_lt r hr := by
    rw [State.complete, List.length_set]
    exact hs.ran_lt r hr
  success_eq k g' hg' := by
    rcases group_set_cases hg' with ⟨rfl, rfl⟩ | ⟨-, hold⟩
    · exact hs.success_eq k g hg
    · exact hs.success_eq k g' hold
  notified_iff k := by
    rw [State.complete, List.map_append, List.mem_append, hs.notified_iff k,
      notified_set_iff hg rfl, List.map_singleton, List.mem_singleton]
    split
    · rename_i hk
      exact iff_of_true (Or.inr hk) rfl
    · rename_i hk
      exact or_iff_left hk
  notified_empty k g' hg' hnotified := by
    rcases group_set_cases hg' with ⟨rfl, rfl⟩ | ⟨-, hold⟩
    · exact hempty
    · exact hs.notified_empty k g' hold hnotified
  completed_nodup := by
    rw [State.complete, List.map_append, List.map_singleton, ← List.concat_eq_append,
      List.nodup_concat]
    refine ⟨?_, hs.completed_nodup⟩
    intro hmem
    obtain ⟨g', hg', hnotified⟩ := (hs.notified_iff i).mp hmem
    obtain rfl := Option.some.inj (hg.symm.trans hg')
    exact Bool.false_ne_true (hnot.symm.trans hnotified)
  completed_eq k value h := by
    rcases List.mem_append.mp h with h | h
    · exact hs.completed_eq k value h
    · obtain ⟨rfl, rfl⟩ := Prod.mk.inj (List.mem_singleton.mp h)
      exact hs.success_eq k g hg

/-- A completion is truthful when a failed block of the group means that the last one failed. -/
theorem value_iff {results : List (Block × Bool)} :
    (lastResult results = true ↔ ∀ o ∈ results, o.2 = true) ↔
      ((∃ o ∈ results, o.2 = false) → lastResult results = false) := by
  constructor
  · rintro h ⟨o, ho, hfalse⟩
    by_contra hlast
    exact Bool.false_ne_true (hfalse.symm.trans (h.mp (Bool.of_not_eq_false hlast) o ho))
  · intro h
    refine ⟨fun hlast o ho => ?_, lastResult_of_forall⟩
    by_contra hne
    have hfalse := h ⟨o, ho, Bool.of_not_eq_true hne⟩
    exact Bool.false_ne_true (hfalse.symm.trans hlast)

theorem truthful_complete_iff (hs : Bookkeeping perform disk s) (hg : s.groups[i]? = some g) :
    Truthful perform disk (s.complete i g) ↔
      LastFails perform disk s i ∧ Truthful perform disk s := by
  have hvalue := @value_iff Block (returned perform disk s i)
  rw [← hs.success_eq i g hg] at hvalue
  rw [LastFails, ← hs.success_eq i g hg, ← hvalue]
  constructor
  · intro h
    exact ⟨h i g.success (List.mem_append_right _ (List.mem_singleton_self _)),
      fun k value hk => h k value (List.mem_append_left _ hk)⟩
  · rintro ⟨hfirst, hrest⟩ k value hk
    rcases List.mem_append.mp hk with hk | hk
    · exact hrest k value hk
    · obtain ⟨rfl, rfl⟩ := Prod.mk.inj (List.mem_singleton.mp hk)
      exact hfirst

theorem truthful_leave_iff (hs : Bookkeeping perform disk s) (hg : s.groups[i]? = some g)
    {b : Block} (hb : g.blocks[j]? = some b) (input : Input) (result : Bool × Disk) :
    Truthful perform disk (s.leave i g j b input result) ↔ Truthful perform disk s := by
  apply forall_congr'
  intro k
  apply forall_congr'
  intro value
  apply imp_congr_right
  intro h
  have hne : i ≠ k := by
    rintro rfl
    exact not_notified hs hg hb (List.mem_map_of_mem h)
  rw [returned_leave_of_ne hne]

section Accounts

variable {entered : List (List Block)}

theorem new_accounts (perform : Block → Input → Disk → Bool × Disk) (disk : Disk) :
    Accounts perform disk [] (State.new disk) :=
  ⟨rfl, fun _ _ _ hg => by cases hg⟩

theorem enter_accounts (hs : Bookkeeping perform disk s) (ha : Accounts perform disk entered s)
    (blocks : List Block) :
    Accounts perform disk (entered ++ [blocks]) (s.enter blocks) := by
  obtain ⟨hlen, hperm⟩ := ha
  refine ⟨by simp [State.enter, hlen], ?_⟩
  intro i g blocks' hg hblocks
  rcases group_enter_cases hg with hold | ⟨rfl, rfl⟩
  · have hlt := (List.getElem?_eq_some_iff.mp hold).1
    rw [List.getElem?_append_left (by omega)] at hblocks
    exact hperm i g blocks' hold hblocks
  · rw [List.getElem?_append_right (by omega), hlen, Nat.sub_self] at hblocks
    obtain rfl : blocks = blocks' := Option.some.inj hblocks
    have hnone : returned perform disk s s.groups.length = [] :=
      returned_of_le hs (Nat.le_refl _)
    change ((returned perform disk s _).map Prod.fst ++ blocks).Perm blocks
    rw [hnone, List.map_nil, List.nil_append]

theorem leave_accounts (hs : Bookkeeping perform disk s) (ha : Accounts perform disk entered s)
    (hg : s.groups[i]? = some g) {b : Block} (hb : g.blocks[j]? = some b) (input : Input) :
    Accounts perform disk entered (s.leave i g j b input (perform b input s.disk)) := by
  obtain ⟨hlen, hperm⟩ := ha
  refine ⟨by rw [State.leave, List.length_set, hlen], ?_⟩
  intro k g' blocks hg' hblocks
  rcases group_set_cases hg' with ⟨rfl, rfl⟩ | ⟨hne, hold⟩
  · rw [returned_leave_self hs, List.map_append, List.map_singleton, List.append_assoc,
      List.singleton_append]
    exact ((cons_eraseIdx_perm hb).append_left _).trans (hperm k g blocks hg hblocks)
  · rw [returned_leave_of_ne (Ne.symm hne)]
    exact hperm k g' blocks hold hblocks

theorem complete_accounts (ha : Accounts perform disk entered s)
    (hg : s.groups[i]? = some g) : Accounts perform disk entered (s.complete i g) := by
  obtain ⟨hlen, hperm⟩ := ha
  refine ⟨by rw [State.complete, List.length_set, hlen], ?_⟩
  intro k g' blocks hg' hblocks
  rcases group_set_cases hg' with ⟨rfl, rfl⟩ | ⟨-, hold⟩
  · exact hperm k g blocks hg hblocks
  · exact hperm k g' blocks hold hblocks

/-- A group notifies after all its blocks. -/
theorem completed_perm (hs : Bookkeeping perform disk s) (ha : Accounts perform disk entered s)
    (hi : i ∈ s.completions.map Prod.fst) :
    ∃ blocks, entered[i]? = some blocks ∧
      ((returned perform disk s i).map Prod.fst).Perm blocks := by
  obtain ⟨g, hg, hnotified⟩ := (hs.notified_iff i).mp hi
  have hlt := (List.getElem?_eq_some_iff.mp hg).1
  obtain ⟨blocks, hblocks⟩ : ∃ blocks, entered[i]? = some blocks :=
    ⟨_, List.getElem?_eq_getElem (ha.1 ▸ hlt)⟩
  have hperm := ha.2 i g blocks hg hblocks
  rw [hs.notified_empty i g hg hnotified, List.append_nil] at hperm
  exact ⟨blocks, hblocks, hperm⟩

/-- When no block is left and no group can notify, every group has. -/
theorem completed_of_idle (hs : Bookkeeping perform disk s)
    (hempty : ∀ g ∈ s.groups, g.blocks = []) (hidle : ∀ i, step perform s (.notify i) = none)
    (hi : i < s.groups.length) : i ∈ s.completions.map Prod.fst := by
  have hg : s.groups[i]? = some s.groups[i] := List.getElem?_eq_getElem hi
  refine (hs.notified_iff i).mpr ⟨_, hg, ?_⟩
  by_contra hnot
  have hnotify : step perform s (.notify i) = some (s.complete i s.groups[i]) :=
    notify_eq_some.mpr ⟨_, hg, hempty _ (List.getElem_mem hi), Bool.of_not_eq_true hnot, rfl⟩
  rw [hidle i] at hnotify
  cases hnotify

end Accounts

end GroupOutcomes

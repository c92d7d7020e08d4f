import TinkoffChat.PartialRuns
import Mathlib.Data.List.Basic

/-!
Dispatch groups on a concurrent queue. A group enters the queue with all its
blocks, which run in any order and among those of the other groups; each block
sets the variable that its group shares to its own result. A block is one event,
at the place where it sets the variable, so what a group ends with is the result
of the last block to set it. When all blocks of a group have left it, the group
notifies once, with what the variable then holds. The blocks that ran and the
completions are logged.
-/
namespace DispatchGroups

structure Group (Block : Type*) where
  blocks : List Block
  success : Bool
  notified : Bool

structure State (Block Input Disk : Type*) where
  groups : List (Group Block)
  disk : Disk
  ran : List (ℕ × Block × Input)
  completions : List (ℕ × Bool)

inductive Event (Input : Type*)
  | run (group block : ℕ) (input : Input)
  | notify (group : ℕ)

variable {Block Input Disk : Type*}

namespace State

def new (disk : Disk) : State Block Input Disk := ⟨[], disk, [], []⟩

def enter (s : State Block Input Disk) (blocks : List Block) : State Block Input Disk :=
  { s with groups := s.groups ++ [⟨blocks, true, false⟩] }

/-- All blocks have run and all groups have notified. -/
def Settled (s : State Block Input Disk) : Prop :=
  ∀ g ∈ s.groups, g.blocks = [] ∧ g.notified = true

/-- The block of the group has set the variable to the given result, and left. -/
def leave (s : State Block Input Disk) (i : ℕ) (g : Group Block) (j : ℕ) (block : Block)
    (input : Input) (result : Bool × Disk) : State Block Input Disk :=
  { s with
    groups := s.groups.set i { g with blocks := g.blocks.eraseIdx j, success := result.1 }
    disk := result.2
    ran := s.ran ++ [(i, block, input)] }

def complete (s : State Block Input Disk) (i : ℕ) (g : Group Block) : State Block Input Disk :=
  { s with
    groups := s.groups.set i { g with notified := true }
    completions := s.completions ++ [(i, g.success)] }

end State

def step (perform : Block → Input → Disk → Bool × Disk) (s : State Block Input Disk) :
    Event Input → Option (State Block Input Disk)
  | .run group block input => s.groups[group]?.bind fun g => g.blocks[block]?.map fun b =>
      s.leave group g block b input (perform b input s.disk)
  | .notify group => s.groups[group]?.bind fun g =>
      if g.blocks.isEmpty ∧ g.notified = false then some (s.complete group g) else none

variable {perform : Block → Input → Disk → Bool × Disk} {s t : State Block Input Disk}
  {i j : ℕ} {g : Group Block}

theorem run_eq_some {input : Input} : step perform s (.run i j input) = some t ↔
    ∃ g b, s.groups[i]? = some g ∧ g.blocks[j]? = some b ∧
      t = s.leave i g j b input (perform b input s.disk) := by
  simp only [step, Option.bind_eq_some_iff, Option.map_eq_some_iff]
  constructor
  · rintro ⟨g, hg, b, hb, rfl⟩
    exact ⟨g, b, hg, hb, rfl⟩
  · rintro ⟨g, b, hg, hb, rfl⟩
    exact ⟨g, hg, b, hb, rfl⟩

theorem notify_eq_some : step perform s (.notify i) = some t ↔
    ∃ g, s.groups[i]? = some g ∧ g.blocks = [] ∧ g.notified = false ∧ t = s.complete i g := by
  simp only [step, Option.bind_eq_some_iff, Option.ite_none_right_eq_some, List.isEmpty_iff,
    Option.some.injEq, and_assoc]
  constructor
  · rintro ⟨g, hg, hempty, hnot, rfl⟩
    exact ⟨g, hg, hempty, hnot, rfl⟩
  · rintro ⟨g, hg, hempty, hnot, rfl⟩
    exact ⟨g, hg, hempty, hnot, rfl⟩

theorem group_enter_cases {blocks : List Block} (h : (s.enter blocks).groups[i]? = some g) :
    s.groups[i]? = some g ∨ i = s.groups.length ∧ g = ⟨blocks, true, false⟩ := by
  rcases Nat.lt_or_ge i s.groups.length with hlt | hge
  · exact Or.inl ((List.getElem?_append_left hlt).symm.trans h)
  · have hnew := (List.getElem?_append_right hge).symm.trans h
    rw [List.getElem?_singleton] at hnew
    split at hnew
    · rename_i hzero
      exact Or.inr ⟨by omega, (Option.some.inj hnew).symm⟩
    · cases hnew

theorem group_set_cases {groups : List (Group Block)} {g' : Group Block}
    (h : (groups.set i g')[j]? = some g) :
    (j = i ∧ g = g') ∨ (j ≠ i ∧ groups[j]? = some g) := by
  by_cases hij : i = j
  · subst hij
    obtain ⟨hlt, -⟩ := List.getElem?_eq_some_iff.mp h
    rw [List.length_set] at hlt
    exact Or.inl ⟨rfl, (Option.some.inj ((List.getElem?_set_self hlt).symm.trans h)).symm⟩
  · rw [List.getElem?_set_ne hij] at h
    exact Or.inr ⟨Ne.symm hij, h⟩

end DispatchGroups

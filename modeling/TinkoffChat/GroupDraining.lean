import TinkoffChat.DispatchGroups
import Mathlib.Algebra.BigOperators.Group.List.Basic
import Mathlib.Algebra.Ring.Nat

/-!
Dispatch groups on a queue never get stuck: a block that is left can run, and a
group without blocks can notify. Each step takes one of these away, so the
groups on the queue settle after a number of steps that can be read off them.
-/
namespace DispatchGroups

variable {Block Input Disk : Type*}

/-- The blocks left and the notification. -/
def Group.work (g : Group Block) : ℕ := g.blocks.length + if g.notified then 0 else 1

def State.work (s : State Block Input Disk) : ℕ := (s.groups.map Group.work).sum

variable {perform : Block → Input → Disk → Bool × Disk} {s t : State Block Input Disk}

theorem work_enter (s : State Block Input Disk) (blocks : List Block) :
    (s.enter blocks).work = s.work + (blocks.length + 1) := by
  rw [State.work, State.enter, List.map_append, List.sum_append]
  rfl

theorem work_set {groups : List (Group Block)} {i : ℕ} {g : Group Block} (hg : groups[i]? = some g)
    (g' : Group Block) :
    ((groups.set i g').map Group.work).sum + g.work = (groups.map Group.work).sum + g'.work := by
  obtain ⟨hlt, rfl⟩ := List.getElem?_eq_some_iff.mp hg
  have hold := ((List.getElem_cons_eraseIdx_perm hlt).map Group.work).sum_eq
  have hnew := ((List.set_perm_cons_eraseIdx hlt g').map Group.work).sum_eq
  rw [List.map_cons, List.sum_cons] at hold hnew
  omega

/-- Every step of the queue leaves less to do. -/
theorem step_work {e : Event Input} (h : step perform s e = some t) : t.work + 1 = s.work := by
  cases e with
  | run i j input =>
    obtain ⟨g, b, hg, hb, rfl⟩ := run_eq_some.mp h
    have hlt := (List.getElem?_eq_some_iff.mp hb).1
    have hset := work_set hg
      { g with blocks := g.blocks.eraseIdx j, success := (perform b input s.disk).1 }
    simp only [Group.work, List.length_eraseIdx_of_lt hlt] at hset
    simp only [State.work, State.leave]
    omega
  | notify i =>
    obtain ⟨g, hg, hempty, hnot, rfl⟩ := notify_eq_some.mp h
    have hset := work_set hg { g with notified := true }
    have hwork : g.work = 1 := by simp [Group.work, hempty, hnot]
    have hdone : Group.work { g with notified := true } = 0 := by simp [Group.work, hempty]
    rw [hwork, hdone, Nat.add_zero] at hset
    exact hset

/-- Unless everything has settled a block can run, with any input, or a group can notify. -/
theorem exists_step_of_not_settled (h : ¬ s.Settled) :
    ∃ i, (∃ t, step perform s (.notify i) = some t) ∨
      ∀ input, ∃ t, step perform s (.run i 0 input) = some t := by
  rw [State.Settled] at h
  push Not at h
  obtain ⟨g, hmem, hg⟩ := h
  obtain ⟨i, hi⟩ := List.mem_iff_getElem?.mp hmem
  refine ⟨i, ?_⟩
  cases hblocks : g.blocks with
  | nil =>
    left
    exact ⟨_, notify_eq_some.mpr ⟨g, hi, hblocks, Bool.of_not_eq_true (hg hblocks), rfl⟩⟩
  | cons b rest =>
    right
    intro input
    exact ⟨_, run_eq_some.mpr ⟨g, b, hi, by rw [hblocks]; rfl, rfl⟩⟩

end DispatchGroups

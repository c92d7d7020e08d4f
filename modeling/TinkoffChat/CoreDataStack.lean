import TinkoffChat.ChangeLog
import TinkoffChat.PartialRuns

/-!
The chain of Core Data contexts. A performSave opens a child of the main
context, lets its block make changes there and saves the child, the main
context and the writer one after another. A save moves what is pending to the
parent, that of the writer to the store; one that fails leaves it pending, and
the parent is saved all the same. Every change bears the number of its call, so
that it can be followed down the chain.
-/
namespace TinkoffChat.CoreDataStack

open ChangeLog PartialRuns

variable {K V : Type*}

/-- Changes with the calls that made them, in the order they were made. -/
abbrev Log (K V : Type*) := List (ℕ × Change K V)

/-- The changes that one call made among those of a log. -/
def changesOf (n : ℕ) (log : Log K V) : List (Change K V) :=
  (log.filter fun c => c.1 = n).map Prod.snd

/-- What is pending in the two contexts that stay and what the store has taken since
the launch; the blocks are kept to tell what each call has changed. -/
structure Stack (K V : Type*) where
  initial : Table K V
  stored : Log K V
  writterContext : Log K V
  mainContext : Log K V
  blocks : List (List (Change K V))

/-- Which of the calls that can throw succeed in one performSave. -/
structure Outcome where
  obtainPermanentIDs : Bool
  child : Bool
  main : Bool
  writter : Bool

namespace Stack

def launch (initial : Table K V) : Stack K V := ⟨initial, [], [], [], []⟩

/-- What can be seen in the main context: its own changes over those further down. -/
def visible (s : Stack K V) : Log K V := s.stored ++ s.writterContext ++ s.mainContext

/-- `save()` of the child context with the given changes pending. -/
def saveChild (changes : Log K V) (succeeds : Bool) (s : Stack K V) : Stack K V :=
  if succeeds then { s with mainContext := s.mainContext ++ changes } else s

def saveMain (succeeds : Bool) (s : Stack K V) : Stack K V :=
  if succeeds then
    { s with writterContext := s.writterContext ++ s.mainContext, mainContext := [] }
  else s

def saveWritter (succeeds : Bool) (s : Stack K V) : Stack K V :=
  if succeeds then { s with stored := s.stored ++ s.writterContext, writterContext := [] } else s

/-- `performSave(in:)` of the child: an error is logged and the parent comes next. -/
def performSaveIn (changes : Log K V) (outcome : Outcome) (s : Stack K V) : Stack K V :=
  ((s.saveChild changes outcome.child).saveMain outcome.main).saveWritter outcome.writter

variable [DecidableEq K]

def mainTable (s : Stack K V) : Table K V := replay s.initial (s.visible.map Prod.snd)

def storeTable (s : Stack K V) : Table K V := replay s.initial (s.stored.map Prod.snd)

/-- The child context starts from the main context and is gone when the call returns. -/
def performSave (block : Table K V → List (Change K V)) (outcome : Outcome) (s : Stack K V) :
    Stack K V :=
  let changes := block s.mainTable
  let called := { s with blocks := s.blocks ++ [changes] }
  if changes ≠ [] ∧ outcome.obtainPermanentIDs then
    called.performSaveIn (changes.map (Prod.mk s.blocks.length)) outcome
  else called

end Stack

/-- A call of performSave with its block and the outcomes of what it calls. -/
structure Save (K V : Type*) where
  block : Table K V → List (Change K V)
  outcome : Outcome

/-- Of every call made, all changes can be seen in the main context and are stored, or
none can and none is. -/
def AllOrNothing (s : Stack K V) : Prop :=
  ∀ n changes, s.blocks[n]? = some changes →
    (changesOf n s.visible = changes ∧ changesOf n s.stored = changes) ∨
      (changesOf n s.visible = [] ∧ changesOf n s.stored = [])

variable [DecidableEq K]

def step (s : Stack K V) (e : Save K V) : Option (Stack K V) :=
  some (s.performSave e.block e.outcome)

/-- In every state of the run the calls are all or nothing, and no later call stores
what an earlier one has not. -/
def Atomic (s : Stack K V) (es : List (Save K V)) : Prop :=
  ∀ fs gs, fs ++ gs <+: es → ∀ u v, run step s fs = some u → run step u gs = some v →
    AllOrNothing v ∧
      ∀ n < u.blocks.length, changesOf n u.stored = [] → changesOf n v.stored = []

/-- Once the changes have reached the main context, both saves below it succeed. -/
def Completes (s : Stack K V) (e : Save K V) : Prop :=
  e.block s.mainTable ≠ [] → e.outcome.obtainPermanentIDs → e.outcome.child →
    e.outcome.main ∧ e.outcome.writter

/-- Nothing is pending, the calls so far are all or nothing, and no other changes are stored. -/
structure Clean (s : Stack K V) : Prop where
  main_eq : s.mainContext = []
  writter_eq : s.writterContext = []
  allOrNothing : AllOrNothing s
  numbered : ∀ c ∈ s.stored, c.1 < s.blocks.length

omit [DecidableEq K] in
theorem changesOf_append (n : ℕ) (log log' : Log K V) :
    changesOf n (log ++ log') = changesOf n log ++ changesOf n log' := by
  simp [changesOf]

omit [DecidableEq K] in
theorem changesOf_self (n : ℕ) (changes : List (Change K V)) :
    changesOf n (changes.map (Prod.mk n)) = changes := by
  simp [changesOf, List.filter_map, Function.comp_def]

omit [DecidableEq K] in
theorem changesOf_of_forall_ne {n : ℕ} {log : Log K V} (h : ∀ c ∈ log, c.1 ≠ n) :
    changesOf n log = [] := by
  rw [changesOf, List.map_eq_nil_iff, List.filter_eq_nil_iff]
  intro c hc
  simpa using h c hc

/-- What a performSave leaves when nothing was pending: nothing new, or its changes,
as far down as the saves went. -/
theorem performSave_cases {s : Stack K V} (hs : Clean s) (e : Save K V) :
    let changes := (e.block s.mainTable).map (Prod.mk s.blocks.length)
    let called := { s with blocks := s.blocks ++ [e.block s.mainTable] }
    (Completes s e ∧ s.performSave e.block e.outcome = called ∧
        (e.block s.mainTable = [] ∨ e.outcome.obtainPermanentIDs = false ∨
          e.outcome.child = false)) ∨
      (Completes s e ∧ s.performSave e.block e.outcome =
        { called with stored := s.stored ++ changes }) ∨
      (¬ Completes s e ∧ changes ≠ [] ∧
        (s.performSave e.block e.outcome = { called with mainContext := changes } ∨
          s.performSave e.block e.outcome = { called with writterContext := changes })) := by
  obtain ⟨block, ⟨ids, child, main, writter⟩⟩ := e
  have hmain := hs.main_eq
  have hwritter := hs.writter_eq
  by_cases hempty : block s.mainTable = []
  · exact Or.inl ⟨fun h => absurd hempty h, by simp [Stack.performSave, hempty], Or.inl hempty⟩
  cases ids with
  | false =>
    refine Or.inl ⟨fun _ h => absurd h Bool.false_ne_true, ?_, Or.inr (Or.inl rfl)⟩
    simp [Stack.performSave]
  | true =>
    cases child with
    | false =>
      refine Or.inl ⟨fun _ _ h => absurd h Bool.false_ne_true, ?_, Or.inr (Or.inr rfl)⟩
      -- the saves of the parents find nothing pending
      cases main <;> cases writter <;>
        simp [Stack.performSave, Stack.performSaveIn, Stack.saveChild, Stack.saveMain,
          Stack.saveWritter, hempty, hmain, hwritter]
    | true =>
      have hchanges : (block s.mainTable).map (Prod.mk s.blocks.length) ≠ [] := by
        simpa using hempty
      cases main with
      | false =>
        refine Or.inr (Or.inr ⟨fun h => absurd (h hempty rfl rfl).1 Bool.false_ne_true,
          hchanges, Or.inl ?_⟩)
        cases writter <;>
          simp [Stack.performSave, Stack.performSaveIn, Stack.saveChild, Stack.saveMain,
            Stack.saveWritter, hempty, hmain, hwritter]
      | true =>
        cases writter with
        | false =>
          refine Or.inr (Or.inr ⟨fun h => absurd (h hempty rfl rfl).2 Bool.false_ne_true,
            hchanges, Or.inr ?_⟩)
          simp [Stack.performSave, Stack.performSaveIn, Stack.saveChild, Stack.saveMain,
            Stack.saveWritter, hempty, hmain, hwritter]
        | true =>
          refine Or.inr (Or.inl ⟨fun _ _ _ => ⟨rfl, rfl⟩, ?_⟩)
          simp [Stack.performSave, Stack.performSaveIn, Stack.saveChild, Stack.saveMain,
            Stack.saveWritter, hempty, hmain, hwritter]

omit [DecidableEq K] in
/-- The changes of a new call leave what the earlier calls have changed. -/
theorem changesOf_new {n m : ℕ} (h : n < m) (log : Log K V) (changes : List (Change K V)) :
    changesOf n (log ++ changes.map (Prod.mk m)) = changesOf n log := by
  have hnone : changesOf n (changes.map (Prod.mk m)) = [] := by
    apply changesOf_of_forall_ne
    intro c hc
    obtain ⟨change, -, rfl⟩ := List.mem_map.mp hc
    exact Nat.ne_of_gt h
  rw [changesOf_append, hnone, List.append_nil]

omit [DecidableEq K] in
theorem clean_visible {s : Stack K V} (hs : Clean s) : s.visible = s.stored := by
  rw [Stack.visible, hs.main_eq, hs.writter_eq, List.append_nil, List.append_nil]

omit [DecidableEq K] in
/-- The next call has stored nothing yet. -/
theorem changesOf_future {s : Stack K V} (hs : Clean s) :
    changesOf s.blocks.length s.stored = [] :=
  changesOf_of_forall_ne fun c hc => Nat.ne_of_lt (hs.numbered c hc)

omit [DecidableEq K] in
/-- A call that has no changes, or loses them, leaves the stack clean. -/
theorem clean_called {s : Stack K V} (hs : Clean s) (changes : List (Change K V)) :
    Clean { s with blocks := s.blocks ++ [changes] } := by
  refine ⟨hs.main_eq, hs.writter_eq, ?_, ?_⟩
  · intro n block hn
    rcases Nat.lt_or_ge n s.blocks.length with hlt | hge
    · rw [List.getElem?_append_left hlt] at hn
      exact hs.allOrNothing n block hn
    · have hfuture : changesOf n s.stored = [] :=
        changesOf_of_forall_ne fun c hc => Nat.ne_of_lt (Nat.lt_of_lt_of_le (hs.numbered c hc) hge)
      exact Or.inr ⟨(congrArg (changesOf n) (clean_visible hs)).trans hfuture, hfuture⟩
  · intro c hc
    rw [List.length_append]
    exact Nat.lt_add_right _ (hs.numbered c hc)

omit [DecidableEq K] in
/-- A call whose changes go all the way down leaves the stack clean. -/
theorem clean_stored {s : Stack K V} (hs : Clean s) (changes : List (Change K V)) :
    Clean { s with
      blocks := s.blocks ++ [changes]
      stored := s.stored ++ changes.map (Prod.mk s.blocks.length) } := by
  refine ⟨hs.main_eq, hs.writter_eq, ?_, ?_⟩
  · intro n block hn
    have hvisible : Stack.visible { s with
        blocks := s.blocks ++ [changes]
        stored := s.stored ++ changes.map (Prod.mk s.blocks.length) } =
          s.stored ++ changes.map (Prod.mk s.blocks.length) := by
      simp [Stack.visible, hs.main_eq, hs.writter_eq]
    rw [hvisible]
    rcases Nat.lt_or_ge n s.blocks.length with hlt | hge
    · rw [List.getElem?_append_left hlt] at hn
      rw [changesOf_new hlt]
      have hold := hs.allOrNothing n block hn
      rw [clean_visible hs] at hold
      exact hold
    · obtain ⟨hlt, -⟩ := List.getElem?_eq_some_iff.mp hn
      obtain rfl : n = s.blocks.length := by
        rw [List.length_append, List.length_singleton] at hlt
        omega
      rw [List.getElem?_concat_length, Option.some.injEq] at hn
      subst hn
      rw [changesOf_append, changesOf_future hs, changesOf_self]
      exact Or.inl ⟨rfl, rfl⟩
  · intro c hc
    rw [List.length_append, List.length_singleton]
    rcases List.mem_append.mp hc with hold | hnew
    · exact Nat.lt_succ_of_lt (hs.numbered c hold)
    · obtain ⟨change, -, rfl⟩ := List.mem_map.mp hnew
      exact Nat.lt_succ_self _

/-- A call is all or nothing exactly when its changes do not stop on the way. -/
theorem step_allOrNothing_iff {s t : Stack K V} {e : Save K V} (hs : Clean s)
    (h : step s e = some t) : AllOrNothing t ↔ Completes s e := by
  obtain rfl := Option.some.inj h
  have hlast {stored writter main : Log K V} :
      (Stack.mk s.initial stored writter main
        (s.blocks ++ [e.block s.mainTable])).blocks[s.blocks.length]? =
        some (e.block s.mainTable) := List.getElem?_concat_length
  rcases performSave_cases hs e with ⟨hc, heq, -⟩ | ⟨hc, heq⟩ | ⟨hc, hne, heq⟩
  · rw [heq]
    exact iff_of_true (clean_called hs _).allOrNothing hc
  · rw [heq]
    exact iff_of_true (clean_stored hs _).allOrNothing hc
  · refine iff_of_false ?_ hc
    have hchanges : e.block s.mainTable ≠ [] := by simpa using hne
    have hseen : changesOf s.blocks.length
        (s.stored ++ (e.block s.mainTable).map (Prod.mk s.blocks.length)) =
          e.block s.mainTable := by
      rw [changesOf_append, changesOf_future hs, changesOf_self, List.nil_append]
    intro hall
    rcases heq with heq | heq
    all_goals
      rw [heq] at hall
      rcases hall s.blocks.length _ hlast with ⟨-, hstored⟩ | ⟨hvisible, -⟩
      · exact hchanges (hstored.symm.trans (changesOf_future hs))
      · simp only [Stack.visible, hs.main_eq, hs.writter_eq, List.append_nil] at hvisible
        exact hchanges (hseen.symm.trans hvisible)

theorem step_clean {s t : Stack K V} {e : Save K V} (hs : Clean s) (he : Completes s e)
    (h : step s e = some t) :
    Clean t ∧ s.blocks.length ≤ t.blocks.length ∧
      ∀ n < s.blocks.length, changesOf n t.stored = changesOf n s.stored := by
  obtain rfl := Option.some.inj h
  rcases performSave_cases hs e with ⟨-, heq, -⟩ | ⟨-, heq⟩ | ⟨hc, -, -⟩
  · rw [heq]
    exact ⟨clean_called hs _, by simp, fun _ _ => rfl⟩
  · rw [heq]
    exact ⟨clean_stored hs _, by simp, fun n hn => changesOf_new hn _ _⟩
  · exact absurd he hc

theorem run_clean {s t : Stack K V} {es : List (Save K V)} (hs : Clean s)
    (hes : Along step Completes s es) (h : run step s es = some t) :
    Clean t ∧ s.blocks.length ≤ t.blocks.length ∧
      ∀ n < s.blocks.length, changesOf n t.stored = changesOf n s.stored := by
  induction es generalizing s with
  | nil =>
    obtain rfl : s = t := Option.some.inj h
    exact ⟨hs, Nat.le_refl _, fun _ _ => rfl⟩
  | cons e es ih =>
    obtain ⟨u, hu, hrest⟩ := run_cons_eq_some.mp h
    obtain ⟨he, hes⟩ := (along_cons_of_step hu).mp hes
    obtain ⟨hclean, hle, hsame⟩ := step_clean hs he hu
    obtain ⟨hclean', hle', hsame'⟩ := ih hclean hes hrest
    refine ⟨hclean', Nat.le_trans hle hle', fun n hn => ?_⟩
    rw [hsame' n (Nat.lt_of_lt_of_le hn hle), hsame n hn]

omit [DecidableEq K] in
theorem launch_clean (initial : Table K V) : Clean (Stack.launch initial) := by
  refine ⟨rfl, rfl, ?_, ?_⟩
  · intro n changes hn
    simp [Stack.launch] at hn
  · intro c hc
    simp [Stack.launch] at hc

/-- Every call of a run is all or nothing, for good, if and only if none stops with its
changes in the main context or the writer. -/
theorem atomic_iff (initial : Table K V) (es : List (Save K V)) :
    Atomic (Stack.launch initial) es ↔ Along step Completes (Stack.launch initial) es := by
  have hs := launch_clean initial
  generalize Stack.launch initial = s at hs ⊢
  constructor
  · intro hatomic
    induction es generalizing s with
    | nil => trivial
    | cons e es ih =>
      obtain ⟨t, ht⟩ : ∃ t, step s e = some t := ⟨_, rfl⟩
      have hfirst := (hatomic [e] [] (List.prefix_append [e] es) t t
        (by rw [run_cons_of_step ht, run_nil]) rfl).1
      have hcompletes := (step_allOrNothing_iff hs ht).mp hfirst
      rw [along_cons_of_step ht]
      refine ⟨hcompletes, ih t (step_clean hs hcompletes ht).1 fun fs gs hprefix u v hu hv => ?_⟩
      exact hatomic (e :: fs) gs ((List.prefix_cons_inj e).mpr hprefix) u v
        (by rw [run_cons_of_step ht, hu]) hv
  · intro halong fs gs hprefix u v hu hv
    obtain ⟨rest, rfl⟩ := hprefix
    rw [List.append_assoc, along_append_of_run hu, along_append_of_run hv] at halong
    obtain ⟨hfs, hgs, -⟩ := halong
    have hclean := (run_clean hs hfs hu).1
    obtain ⟨hlast, -, hsame⟩ := run_clean hclean hgs hv
    refine ⟨hlast.allOrNothing, fun n hn hnone => ?_⟩
    rw [hsame n hn, hnone]

/-- A call whose changes do not stop on the way is one transaction: both tables take its
block, or stay as they are. -/
theorem performSave_transaction {s t : Stack K V} {e : Save K V} (hs : Clean s)
    (he : Completes s e) (h : step s e = some t) :
    t.mainTable = t.storeTable ∧
      (t.storeTable = replay s.storeTable (e.block s.storeTable) ∨
        t.storeTable = s.storeTable) := by
  obtain rfl := Option.some.inj h
  have htable : s.mainTable = s.storeTable := by
    rw [Stack.mainTable, clean_visible hs, Stack.storeTable]
  rcases performSave_cases hs e with ⟨-, heq, -⟩ | ⟨-, heq⟩ | ⟨hc, -, -⟩
  · rw [heq]
    exact ⟨htable, Or.inr rfl⟩
  · rw [heq]
    refine ⟨?_, Or.inl ?_⟩
    · simp [Stack.mainTable, Stack.storeTable, Stack.visible, hs.main_eq, hs.writter_eq]
    · rw [htable]
      simp [Stack.storeTable, replay_append, Function.comp_def]
  · exact absurd he hc

/-- The main context keeps a change that its save fails to move. -/
def keptInMain : Save ℕ ℕ := ⟨fun _ => [.put 0 0], ⟨true, true, false, true⟩⟩

/-- A later call takes it along. -/
def takenAlong : Save ℕ ℕ := ⟨fun _ => [.put 1 1], ⟨true, true, true, true⟩⟩

theorem not_atomic : ¬ ∀ es : List (Save ℕ ℕ), Atomic (Stack.launch fun _ => none) es := by
  intro h
  obtain ⟨u, hu⟩ : ∃ u, run step (Stack.launch fun _ => none) [keptInMain] = some u := ⟨_, rfl⟩
  obtain ⟨v, hv⟩ : ∃ v, run step u [takenAlong] = some v := ⟨_, rfl⟩
  have hlater := (h _ [keptInMain] [takenAlong] (List.prefix_refl _) u v hu hv).2 0
  obtain rfl := Option.some.inj hu
  obtain rfl := Option.some.inj hv
  exact List.cons_ne_nil _ _ (hlater (by decide) rfl)

end TinkoffChat.CoreDataStack

import TinkoffChat.CoreDataStack
import Mathlib.Order.Monotone.Basic

/-!
The store over relaunches of the application. What is pending in the contexts is
lost with the process, and the next one starts from the store. A process that ends
in the middle of a performSave leaves what one leaves whose later saves all fail,
so relaunches between the calls are enough. The store lags behind the main context,
and it always shows some earlier moment of it.
-/
namespace TinkoffChat.StoreRelaunches

open ChangeLog PartialRuns CoreDataStack

variable {K V : Type*} [DecidableEq K]

inductive Event (K V : Type*)
  | save (e : Save K V)
  | relaunch

def step (s : Stack K V) : Event K V → Option (Stack K V)
  | .save e => some (s.performSave e.block e.outcome)
  | .relaunch => some (.launch s.storeTable)

/-- What the writer would leave if it saved now. -/
def writterTable (s : Stack K V) : Table K V :=
  replay s.initial ((s.stored ++ s.writterContext).map Prod.snd)

/-- The call has changes, and the saves below its child context succeed. -/
def Flushes (s : Stack K V) (e : Save K V) : Prop :=
  e.block s.mainTable ≠ [] ∧ e.outcome.obtainPermanentIDs = true ∧ e.outcome.main = true ∧
    e.outcome.writter = true

section Levels

variable {s t : Stack K V} {changes : Log K V} {succeeds : Bool}

theorem mainTable_saveChild : (s.saveChild changes succeeds).mainTable =
    if succeeds then replay s.mainTable (changes.map Prod.snd) else s.mainTable := by
  cases succeeds with
  | false => rfl
  | true => simp [Stack.saveChild, Stack.mainTable, Stack.visible, replay_append]

theorem writterTable_saveChild :
    writterTable (s.saveChild changes succeeds) = writterTable s := by
  cases succeeds <;> rfl

theorem storeTable_saveChild : (s.saveChild changes succeeds).storeTable = s.storeTable := by
  cases succeeds <;> rfl

theorem mainTable_saveMain : (s.saveMain succeeds).mainTable = s.mainTable := by
  cases succeeds with
  | false => rfl
  | true => simp [Stack.saveMain, Stack.mainTable, Stack.visible]

theorem writterTable_saveMain :
    writterTable (s.saveMain succeeds) = if succeeds then s.mainTable else writterTable s := by
  cases succeeds with
  | false => rfl
  | true => simp [Stack.saveMain, Stack.mainTable, Stack.visible, writterTable]

theorem storeTable_saveMain : (s.saveMain succeeds).storeTable = s.storeTable := by
  cases succeeds <;> rfl

theorem mainTable_saveWritter : (s.saveWritter succeeds).mainTable = s.mainTable := by
  cases succeeds with
  | false => rfl
  | true => simp [Stack.saveWritter, Stack.mainTable, Stack.visible]

theorem writterTable_saveWritter :
    writterTable (s.saveWritter succeeds) = writterTable s := by
  cases succeeds with
  | false => rfl
  | true => simp [Stack.saveWritter, writterTable]

theorem storeTable_saveWritter :
    (s.saveWritter succeeds).storeTable = if succeeds then writterTable s else s.storeTable := by
  cases succeeds <;> rfl

/-- Each save brings its level up to the one above, or leaves it as it was. -/
theorem performSaveIn_levels (s : Stack K V) (changes : Log K V) (outcome : Outcome)
    (h : s.performSaveIn changes outcome = t) :
    t.mainTable =
      (if outcome.child then replay s.mainTable (changes.map Prod.snd) else s.mainTable) ∧
    writterTable t = (if outcome.main then t.mainTable else writterTable s) ∧
    t.storeTable = if outcome.writter then writterTable t else s.storeTable := by
  subst h
  refine ⟨?_, ?_, ?_⟩
  · rw [Stack.performSaveIn, mainTable_saveWritter, mainTable_saveMain, mainTable_saveChild]
  · rw [Stack.performSaveIn, writterTable_saveWritter, writterTable_saveMain,
      mainTable_saveWritter, mainTable_saveMain, writterTable_saveChild]
  · rw [Stack.performSaveIn, storeTable_saveWritter, writterTable_saveWritter,
      storeTable_saveMain, storeTable_saveChild]

end Levels

/-- The event leaves nothing pending: what is visible after it is in the store. -/
def Settles (s : Stack K V) : Event K V → Prop
  | .save e => Flushes s e
  | .relaunch => True

/-- What an event does to the three levels. -/
structure Lags (s t : Stack K V) (e : Event K V) : Prop where
  main : ∀ call, e = .save call →
    t.mainTable = s.mainTable ∨ t.mainTable = replay s.mainTable (call.block s.mainTable)
  writter : ¬ Settles s e ∧ writterTable t = writterTable s ∨ writterTable t = t.mainTable
  store : ¬ Settles s e ∧ t.storeTable = s.storeTable ∨ t.storeTable = writterTable t

theorem performSave_lags (s : Stack K V) (call : Save K V) :
    Lags s (s.performSave call.block call.outcome) (.save call) := by
  by_cases hsaves : call.block s.mainTable ≠ [] ∧ call.outcome.obtainPermanentIDs = true
  · have heq : s.performSave call.block call.outcome =
        ({ s with blocks := s.blocks ++ [call.block s.mainTable] } : Stack K V).performSaveIn
          ((call.block s.mainTable).map (Prod.mk s.blocks.length)) call.outcome := if_pos hsaves
    obtain ⟨hmain, hwritter, hstore⟩ := performSaveIn_levels _ _ _ heq.symm
    have hmap : ((call.block s.mainTable).map (Prod.mk s.blocks.length)).map Prod.snd =
        call.block s.mainTable := by simp [Function.comp_def]
    rw [hmap] at hmain
    refine ⟨?_, ?_, ?_⟩
    · rintro _ ⟨⟩
      split at hmain
      · exact Or.inr hmain
      · exact Or.inl hmain
    · split at hwritter
      · exact Or.inr hwritter
      · rename_i hfails
        exact Or.inl ⟨fun hflushes => hfails hflushes.2.2.1, hwritter⟩
    · split at hstore
      · exact Or.inr hstore
      · rename_i hfails
        exact Or.inl ⟨fun hflushes => hfails hflushes.2.2.2, hstore⟩
  · have heq : s.performSave call.block call.outcome =
        { s with blocks := s.blocks ++ [call.block s.mainTable] } := if_neg hsaves
    have hnot : ¬ Flushes s call := fun hflushes => hsaves ⟨hflushes.1, hflushes.2.1⟩
    rw [heq]
    exact ⟨fun _ _ => Or.inl rfl, Or.inl ⟨hnot, rfl⟩, Or.inl ⟨hnot, rfl⟩⟩

theorem step_lags {s t : Stack K V} {e : Event K V} (h : step s e = some t) : Lags s t e := by
  cases e with
  | save call =>
    obtain rfl := Option.some.inj h
    exact performSave_lags s call
  | relaunch =>
    obtain rfl := Option.some.inj h
    exact ⟨by rintro _ ⟨⟩, Or.inr rfl, Or.inr rfl⟩

/-- At each place of the run the store is what the main context was at an earlier one, and
never goes back to one before. What was visible when an event settled the store stays in it,
and what was lost at a relaunch does not come back. -/
structure Durable (init : Stack K V) (es : List (Event K V)) (shown : ℕ → ℕ) : Prop where
  monotone : Monotone shown
  le : ∀ n, shown n ≤ n
  store : ∀ n ≤ es.length, ∀ u v, run step init (es.take n) = some u →
    run step init (es.take (shown n)) = some v → u.storeTable = v.mainTable
  settles : ∀ (m : ℕ) e u, es[m]? = some e → run step init (es.take m) = some u →
    Settles u e → ∀ n, m < n → n ≤ es.length → m < shown n

variable {init s t : Stack K V} {es : List (Event K V)} {e : Event K V} {shown : ℕ → ℕ}
  {last : ℕ}

/-- One more event, after which the store shows the place `last`. -/
theorem Durable.concat (h : Durable init es shown) (hrun : run step init es = some s)
    (hstep : step s e = some t) (hge : shown es.length ≤ last) (hle : last ≤ es.length + 1)
    (hstore : ∀ v, run step init ((es ++ [e]).take last) = some v → t.storeTable = v.mainTable)
    (hsettles : Settles s e → es.length < last) :
    Durable init (es ++ [e]) fun n => if n ≤ es.length then shown n else last := by
  have hlength : (es ++ [e]).length = es.length + 1 := List.length_append
  have htake : ∀ n ≤ es.length, (es ++ [e]).take n = es.take n := fun n hn =>
    List.take_append_of_le_length hn
  refine ⟨?_, ?_, ?_, ?_⟩
  · intro m n hmn
    by_cases hn : n ≤ es.length
    · simpa only [if_pos hn, if_pos (hmn.trans hn)] using h.monotone hmn
    · by_cases hm : m ≤ es.length
      · simpa only [if_neg hn, if_pos hm] using (h.monotone hm).trans hge
      · simp only [if_neg hn, if_neg hm, le_refl]
  · intro n
    by_cases hn : n ≤ es.length
    · simpa only [if_pos hn] using h.le n
    · simp only [if_neg hn]
      omega
  · intro n hn u v hu hv
    by_cases hold : n ≤ es.length
    · simp only [if_pos hold] at hv
      rw [htake n hold] at hu
      rw [htake _ ((h.le n).trans hold)] at hv
      exact h.store n hold u v hu hv
    · simp only [if_neg hold] at hv
      obtain rfl : n = es.length + 1 := by omega
      rw [← hlength, List.take_length, run_concat_eq_some] at hu
      obtain ⟨s', hs', ht'⟩ := hu
      obtain rfl := Option.some.inj (hrun.symm.trans hs')
      obtain rfl := Option.some.inj (hstep.symm.trans ht')
      exact hstore v hv
  · intro m f u hf hu hsettled n hmn hn
    have hm : m ≤ es.length := by omega
    rw [htake m hm] at hu
    rcases Nat.lt_or_eq_of_le hm with hlt | rfl
    · rw [List.getElem?_append_left hlt] at hf
      have hold := h.settles m f u hf hu hsettled
      by_cases hn' : n ≤ es.length
      · simpa only [if_pos hn'] using hold n hmn hn'
      · simpa only [if_neg hn'] using (hold _ hlt (Nat.le_refl _)).trans_le hge
    · rw [List.take_length] at hu
      obtain rfl := Option.some.inj (hrun.symm.trans hu)
      obtain rfl : e = f := Option.some.inj (List.getElem?_concat_length.symm.trans hf)
      simpa only [if_neg (Nat.not_le.mpr hmn)] using hsettles hsettled

/-- The store shows a place, and so does the writer, one that is not earlier. -/
def Follows (init : Stack K V) (es : List (Event K V)) (s : Stack K V) : Prop :=
  ∃ shown next, Durable init es shown ∧ shown es.length ≤ next ∧ next ≤ es.length ∧
    ∀ v, run step init (es.take next) = some v → writterTable s = v.mainTable

theorem follows_launch (initial : Table K V) :
    Follows (Stack.launch initial) [] (Stack.launch initial) := by
  refine ⟨fun _ => 0, 0, ⟨fun _ _ _ => Nat.le_refl _, Nat.zero_le, ?_, ?_⟩, Nat.le_refl _,
    Nat.le_refl _, ?_⟩
  · intro n hn u v hu hv
    obtain rfl : n = 0 := Nat.le_zero.mp hn
    obtain rfl := Option.some.inj hu
    obtain rfl := Option.some.inj hv
    rfl
  · intro m e u he
    cases he
  · intro v hv
    obtain rfl := Option.some.inj hv
    rfl

theorem step_follows (hs : Follows init es s) (hrun : run step init es = some s)
    (hstep : step s e = some t) : Follows init (es ++ [e]) t := by
  obtain ⟨shown, next, hdurable, hle, hnext, hwritter⟩ := hs
  have hlength : (es ++ [e]).length = es.length + 1 := List.length_append
  have hlags := step_lags hstep
  have hnow : ∀ v, run step init ((es ++ [e]).take (es.length + 1)) = some v → t = v := by
    intro v hv
    rw [← hlength, List.take_length, run_concat_eq_some] at hv
    obtain ⟨s', hs', hv⟩ := hv
    obtain rfl := Option.some.inj (hrun.symm.trans hs')
    exact Option.some.inj (hstep.symm.trans hv)
  have hbefore : ∀ m ≤ es.length, ∀ v, run step init ((es ++ [e]).take m) = some v →
      run step init (es.take m) = some v := by
    intro m hm v hv
    rwa [List.take_append_of_le_length hm] at hv
  obtain ⟨next', hle', hnext', hsettles, hwritter'⟩ : ∃ next', next ≤ next' ∧
      next' ≤ es.length + 1 ∧ (Settles s e → es.length < next') ∧
      ∀ v, run step init ((es ++ [e]).take next') = some v → writterTable t = v.mainTable := by
    rcases hlags.writter with ⟨hnot, hsame⟩ | hnew
    · refine ⟨next, Nat.le_refl _, by omega, fun h => absurd h hnot, fun v hv => ?_⟩
      exact hsame.trans (hwritter v (hbefore next hnext v hv))
    · refine ⟨es.length + 1, by omega, Nat.le_refl _, fun _ => Nat.lt_succ_self _, fun v hv => ?_⟩
      exact hnew.trans (congrArg Stack.mainTable (hnow v hv))
  rcases hlags.store with ⟨hnot, hsame⟩ | hnew
  · refine ⟨_, next', hdurable.concat hrun hstep (Nat.le_refl _) (by omega) ?_
      (fun h => absurd h hnot), ?_, by omega, hwritter'⟩
    · intro v hv
      rw [hsame]
      exact hdurable.store es.length (Nat.le_refl _) s v (by rwa [List.take_length])
        (hbefore _ (hle.trans hnext) v hv)
    · rw [hlength, if_neg (Nat.not_succ_le_self _)]
      exact hle.trans hle'
  · refine ⟨_, next', hdurable.concat hrun hstep (hle.trans hle') hnext' ?_ hsettles, ?_,
      by omega, hwritter'⟩
    · exact fun v hv => hnew.trans (hwritter' v hv)
    · rw [hlength, if_neg (Nat.not_succ_le_self _)]

theorem run_total (s : Stack K V) (es : List (Event K V)) :
    ∃ t, run step s es = some t := by
  induction es generalizing s with
  | nil => exact ⟨s, rfl⟩
  | cons e es ih =>
    obtain ⟨t, ht⟩ : ∃ t, step s e = some t := by cases e <;> exact ⟨_, rfl⟩
    rw [run_cons_of_step ht]
    exact ih t

/-- Whatever saves fail and whenever the process ends, the store stands for a moment of the
main context, and the main context changes by whole blocks only. -/
theorem store_durable (initial : Table K V) (es : List (Event K V)) :
    (∃ shown, Durable (Stack.launch initial) es shown) ∧
    ∀ (m : ℕ) call u v, es[m]? = some (.save call) →
      run step (Stack.launch initial) (es.take m) = some u →
      run step (Stack.launch initial) (es.take (m + 1)) = some v →
      v.mainTable = u.mainTable ∨ v.mainTable = replay u.mainTable (call.block u.mainTable) := by
  constructor
  · obtain ⟨s, hs⟩ := run_total (Stack.launch initial) es
    have hfollows : Follows (Stack.launch initial) es s :=
      run_history (follows_launch initial)
        (fun _ _ _ _ hrun ht hstep => step_follows ht hrun hstep) hs
    obtain ⟨shown, -, hdurable, -⟩ := hfollows
    exact ⟨shown, hdurable⟩
  · intro m call u v hm hu hv
    rw [List.take_add_one, hm, Option.toList_some, run_concat_eq_some] at hv
    obtain ⟨u', hu', hstep⟩ := hv
    obtain rfl := Option.some.inj (hu.symm.trans hu')
    exact (step_lags hstep).main call rfl

end TinkoffChat.StoreRelaunches

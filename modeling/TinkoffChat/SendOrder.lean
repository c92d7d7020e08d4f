import TinkoffChat.Messaging
import Mathlib.Data.List.Sort

/-!
The order of one user's messages in one conversation. The creation date is read
when the block runs, so on a clock that keeps moving sorting by it gives the order
in which the blocks ran. That order is the order of the taps exactly when every
block that runs is the earliest one of the conversation still pending.
-/
namespace TinkoffChat.SendOrder

open Documents PartialRuns Messaging

variable {User : Type*} [DecidableEq User]

def inConversation (user : User) (identifier : String) (t : Tap User) : Bool :=
  t.user = user ∧ t.identifier = identifier

/-- The accepted taps of the user in the conversation, in order. -/
def tapsOf (user : User) (identifier : String) (w : World User) : List (Tap User) :=
  w.tapped.filter (inConversation user identifier)

/-- The blocks of the user and the conversation that have not run. -/
def waiting (user : User) (identifier : String) (w : World User) : List (Tap User) :=
  w.pending.filter (inConversation user identifier)

def messagesOf (user : User) (identifier : String) (w : World User) : List (Sent User) :=
  w.documents.filter fun d => inConversation user identifier d.tap

/-- `order(by: "created")` and the sort descriptor of the fetched results controller. -/
def sortedByCreated (docs : List (Sent User)) : List (Sent User) :=
  docs.mergeSort fun a b => a.created ≤ b.created

omit [DecidableEq User] in
theorem sortedByCreated_pairwise (docs : List (Sent User)) :
    (sortedByCreated docs).Pairwise fun a b => a.created ≤ b.created := by
  have hsorted : (sortedByCreated docs).Pairwise fun a b => decide (a.created ≤ b.created) := by
    apply List.pairwise_mergeSort
    · intro a b c hab hbc
      exact decide_eq_true ((of_decide_eq_true hab).trans (of_decide_eq_true hbc))
    · intro a b
      simpa using le_total a.created b.created
  exact hsorted.imp of_decide_eq_true

/-- The messages sorted by their creation date stand in the order of the taps. -/
def InTapOrder (user : User) (identifier : String) (w : World User) : Prop :=
  (sortedByCreated (messagesOf user identifier w)).map Sent.tap = tapsOf user identifier w

/-- A block of the conversation runs only when no earlier one is pending. -/
def EarliestFirst (user : User) (identifier : String) (w : World User) : Event User → Prop
  | .runBlock index _ _ => ∀ t, w.pending[index]? = some t → inConversation user identifier t →
      (w.pending.take index).filter (inConversation user identifier) = []
  | _ => True

/-- The user's clock has moved on since the user's last block read it. -/
def ClockMovedOn (user : User) (w : World User) : Event User → Prop
  | .runBlock index now _ => ∀ t, w.pending[index]? = some t → t.user = user →
      ∀ d ∈ w.documents, d.tap.user = user → d.created < now
  | _ => True

/-- The taps in the order in which their blocks ran. -/
def ran (user : User) (identifier : String) (w : World User) : List (Tap User) :=
  (messagesOf user identifier w).map Sent.tap

/-- The user's documents were created at increasing dates. -/
def DatesIncrease (user : User) (w : World User) : Prop :=
  (w.documents.filter fun d => d.tap.user = user).Pairwise fun a b => a.created < b.created

/-- The bookkeeping of taps and blocks. -/
structure Bookkeeping (w : World User) : Prop where
  serial_lt : w.tapped.Pairwise fun a b => a.serial < b.serial
  serial_bound : ∀ t ∈ w.tapped, t.serial < w.tapped.length
  conserved : w.tapped.Perm (w.documents.map Sent.tap ++ w.pending)
  pending_sublist : w.pending.Sublist w.tapped

omit [DecidableEq User] in
theorem init_bookkeeping : Bookkeeping (World.init : World User) := by
  constructor <;> simp [World.init]

omit [DecidableEq User] in
theorem tapped_bookkeeping {w : World User} (hw : Bookkeeping w) (user : User)
    (identifier message : String) :
    Bookkeeping (sendMessageButtonTapped w user identifier message) := by
  unfold sendMessageButtonTapped
  split
  · exact hw
  · refine { hw with serial_lt := ?_, serial_bound := ?_, conserved := ?_, pending_sublist := ?_ }
    · rw [List.pairwise_append]
      refine ⟨hw.serial_lt, List.pairwise_singleton _ _, ?_⟩
      intro t ht t' ht'
      obtain rfl := List.mem_singleton.mp ht'
      exact hw.serial_bound t ht
    · intro t ht
      rw [List.length_append, List.length_singleton]
      rcases List.mem_append.mp ht with hold | hnew
      · have hbound := hw.serial_bound t hold
        omega
      · obtain rfl := List.mem_singleton.mp hnew
        exact Nat.lt_succ_self _
    · rw [← List.append_assoc]
      exact hw.conserved.append_right _
    · exact hw.pending_sublist.append (List.Sublist.refl _)

omit [DecidableEq User] in
theorem pending_split {w : World User} {index : ℕ} {t : Tap User}
    (ht : w.pending[index]? = some t) :
    w.pending = w.pending.take index ++ t :: w.pending.drop (index + 1) := by
  obtain ⟨hlt, hget⟩ := List.getElem?_eq_some_iff.mp ht
  have hdrop : w.pending.drop index = t :: w.pending.drop (index + 1) := by
    rw [← hget]
    exact List.drop_eq_getElem_cons hlt
  rw [← hdrop, List.take_append_drop]

omit [DecidableEq User] in
theorem runBlock_bookkeeping {w v : World User} (hw : Bookkeeping w) {index : ℕ} {now : Date}
    {documentID : String} (h : runBlock w index now documentID = some v) : Bookkeeping v := by
  obtain ⟨t, ht, -, rfl⟩ := runBlock_eq_some.mp h
  have hsplit := pending_split ht
  refine { hw with conserved := ?_, pending_sublist := ?_ }
  · refine hw.conserved.trans ?_
    rw [List.map_append, List.eraseIdx_eq_take_drop_succ, List.append_assoc]
    apply List.Perm.append_left
    conv_lhs => rw [hsplit]
    exact List.perm_middle
  · exact (List.eraseIdx_sublist _ _).trans hw.pending_sublist

theorem step_bookkeeping {senderId : User → String} {w v : World User} {e : Event User}
    (hw : Bookkeeping w) (h : step senderId w e = some v) : Bookkeeping v := by
  cases e with
  | tap user identifier message =>
    obtain rfl := Option.some.inj h
    exact tapped_bookkeeping hw user identifier message
  | runBlock index now documentID => exact runBlock_bookkeeping hw h
  | deliver user channel documentIDs =>
    obtain rfl := Option.some.inj h
    exact { hw with }

theorem init_datesIncrease (user : User) :
    DatesIncrease user (World.init : World User) := List.Pairwise.nil

theorem step_datesIncrease {senderId : User → String} {w v : World User} {e : Event User}
    {user : User} (hw : DatesIncrease user w) (hclock : ClockMovedOn user w e)
    (h : step senderId w e = some v) : DatesIncrease user v := by
  cases e with
  | tap tapper identifier message =>
    obtain rfl := Option.some.inj h
    unfold sendMessageButtonTapped
    split
    · exact hw
    · exact hw
  | runBlock index now documentID =>
    obtain ⟨t, ht, -, rfl⟩ := runBlock_eq_some.mp h
    unfold DatesIncrease
    rw [List.filter_append, List.pairwise_append]
    refine ⟨hw, (List.pairwise_singleton _ _).filter _, ?_⟩
    intro d hd d' hd'
    obtain ⟨hnew, hown⟩ := List.mem_filter.mp hd'
    obtain rfl := List.mem_singleton.mp hnew
    obtain ⟨hsent, huser⟩ := List.mem_filter.mp hd
    exact hclock t ht (of_decide_eq_true hown) d hsent (of_decide_eq_true huser)
  | deliver receiver channel documentIDs =>
    obtain rfl := Option.some.inj h
    exact hw

/-- The user's dates increase, so sorting by date changes nothing. -/
theorem sortedByCreated_messagesOf {w : World User} {user : User} (hw : DatesIncrease user w)
    (identifier : String) :
    sortedByCreated (messagesOf user identifier w) = messagesOf user identifier w := by
  have hmessages : messagesOf user identifier w =
      (w.documents.filter fun d => d.tap.user = user).filter
        fun d => inConversation user identifier d.tap := by
    rw [messagesOf, List.filter_filter]
    apply List.filter_congr
    intro d _
    by_cases hown : d.tap.user = user <;> simp [inConversation, hown]
  apply List.mergeSort_of_pairwise
  rw [hmessages]
  apply (hw.filter _).imp
  intro a b hab
  exact decide_eq_true (le_of_lt hab)

/-- The taps of the conversation are those whose blocks ran and those that wait. -/
theorem tapsOf_perm {w : World User} (hw : Bookkeeping w) (user : User) (identifier : String) :
    (tapsOf user identifier w).Perm (ran user identifier w ++ waiting user identifier w) := by
  have hperm := hw.conserved.filter (inConversation user identifier)
  rw [List.filter_append, List.filter_map] at hperm
  exact hperm

/-- If the blocks ran in the order of the taps so far, the others still wait in that order. -/
theorem tapsOf_eq_append {w : World User} (hw : Bookkeeping w) {user : User}
    {identifier : String} (h : ran user identifier w <+: tapsOf user identifier w) :
    tapsOf user identifier w = ran user identifier w ++ waiting user identifier w := by
  obtain ⟨rest, hrest⟩ := h
  have hperm := tapsOf_perm hw user identifier
  rw [← hrest, List.perm_append_left_iff] at hperm
  have hsorted : (tapsOf user identifier w).Pairwise fun a b => a.serial < b.serial :=
    hw.serial_lt.filter _
  have hrestSorted : rest.Pairwise fun a b => a.serial < b.serial := by
    rw [← hrest, List.pairwise_append] at hsorted
    exact hsorted.2.1
  have hwaitingSorted : (waiting user identifier w).Pairwise fun a b => a.serial < b.serial :=
    hsorted.sublist (hw.pending_sublist.filter _)
  have heq : rest = waiting user identifier w := by
    refine List.Perm.eq_of_pairwise ?_ hrestSorted hwaitingSorted hperm
    intro a b _ _ hab hba
    omega
  rw [← hrest, heq]

/-- A step keeps the order exactly when it does not overtake a pending block. -/
theorem step_prefix_iff {senderId : User → String} {w v : World User} {e : Event User}
    (hw : Bookkeeping w) (h : step senderId w e = some v) (user : User) (identifier : String) :
    ran user identifier v <+: tapsOf user identifier v ↔
      EarliestFirst user identifier w e ∧
        ran user identifier w <+: tapsOf user identifier w := by
  cases e with
  | tap tapper channel message =>
    obtain rfl := Option.some.inj h
    rw [and_iff_right (show EarliestFirst user identifier w (.tap tapper channel message) from
      trivial)]
    unfold sendMessageButtonTapped
    split
    · exact Iff.rfl
    · have hlength := (tapsOf_perm hw user identifier).length_eq
      rw [List.length_append] at hlength
      rw [tapsOf, List.filter_append]
      constructor
      · intro hprefix
        exact List.prefix_of_prefix_length_le hprefix (List.prefix_append _ _)
          (show (ran user identifier w).length ≤ (tapsOf user identifier w).length by omega)
      · intro hprefix
        exact hprefix.trans (List.prefix_append _ _)
  | runBlock index now documentID =>
    obtain ⟨t, ht, -, rfl⟩ := runBlock_eq_some.mp h
    cases hc : inConversation user identifier t with
    | false =>
      have hfirst : EarliestFirst user identifier w (.runBlock index now documentID) := by
        intro t' ht' hc'
        obtain rfl : t = t' := Option.some.inj (ht.symm.trans ht')
        simp [hc] at hc'
      simp [hfirst, ran, messagesOf, tapsOf, hc]
    | true =>
      have hran : ran user identifier { w with
          pending := w.pending.eraseIdx index
          documents := w.documents ++ [⟨t, documentID, now⟩] } = ran user identifier w ++ [t] := by
        simp [ran, messagesOf, hc]
      have hwaiting : waiting user identifier w =
          (w.pending.take index).filter (inConversation user identifier) ++
            t :: (w.pending.drop (index + 1)).filter (inConversation user identifier) := by
        conv_lhs => rw [waiting, pending_split ht]
        rw [List.filter_append, List.filter_cons_of_pos hc]
      rw [hran]
      change ran user identifier w ++ [t] <+: tapsOf user identifier w ↔ _
      constructor
      · intro hprefix
        have hbefore := (List.prefix_append _ _).trans hprefix
        refine ⟨?_, hbefore⟩
        intro t' ht' _
        rw [tapsOf_eq_append hw hbefore, List.prefix_append_right_inj, hwaiting] at hprefix
        -- were an earlier block pending, it would be the tap expected next
        cases hearlier : (w.pending.take index).filter (inConversation user identifier) with
        | nil => rfl
        | cons first rest =>
          rw [hearlier, List.cons_append] at hprefix
          obtain ⟨rfl, -⟩ := List.cons_prefix_cons.mp hprefix
          have hsorted : (waiting user identifier w).Pairwise fun a b => a.serial < b.serial :=
            (hw.serial_lt.filter _).sublist (hw.pending_sublist.filter _)
          rw [hwaiting, hearlier, List.cons_append, List.pairwise_cons] at hsorted
          exact absurd (hsorted.1 t (by simp)) (lt_irrefl _)
      · rintro ⟨hfirst, hbefore⟩
        rw [tapsOf_eq_append hw hbefore, List.prefix_append_right_inj, hwaiting,
          hfirst t ht hc]
        exact ⟨_, rfl⟩
  | deliver receiver channel documentIDs =>
    obtain rfl := Option.some.inj h
    exact ⟨fun hprefix => ⟨trivial, hprefix⟩, fun h => h.2⟩

theorem run_prefix_iff {senderId : User → String} {w v : World User} {es : List (Event User)}
    (hw : Bookkeeping w) (h : run (step senderId) w es = some v) (user : User)
    (identifier : String) :
    ran user identifier v <+: tapsOf user identifier v ↔
      Along (step senderId) (EarliestFirst user identifier) w es ∧
        ran user identifier w <+: tapsOf user identifier w := by
  have hiff (w : World User) (e : Event User) (v : World User) (hw : Bookkeeping w)
      (h : step senderId w e = some v) :
      ran user identifier v <+: tapsOf user identifier v ↔
        EarliestFirst user identifier w e ∧ ran user identifier w <+: tapsOf user identifier w :=
    step_prefix_iff hw h user identifier
  exact run_iff (fun _ _ _ hw h => step_bookkeeping hw h) hiff hw h

/-- Once all blocks of the conversation have run, its messages sorted by their
dates stand in the order of the taps exactly when no block overtook another. -/
theorem inTapOrder_iff (senderId : User → String) {es : List (Event User)}
    {w : World User} (h : run (step senderId) World.init es = some w) (user : User)
    (identifier : String) (hclock : Along (step senderId) (ClockMovedOn user) World.init es)
    (hdone : waiting user identifier w = []) :
    InTapOrder user identifier w ↔
      Along (step senderId) (EarliestFirst user identifier) World.init es := by
  have hinit : Bookkeeping (World.init : World User) := init_bookkeeping
  have hw : Bookkeeping w :=
    run_invariant (fun _ _ _ hi ht => step_bookkeeping hi ht) hinit h
  have hdates : DatesIncrease user w :=
    run_invariant_along (fun _ _ _ hi hc ht => step_datesIncrease hi hc ht)
      (init_datesIncrease user) hclock h
  have hran : ran user identifier World.init <+: tapsOf user identifier World.init :=
    List.prefix_rfl
  have hiff := run_prefix_iff hinit h user identifier
  rw [and_iff_left hran] at hiff
  rw [← hiff, InTapOrder, sortedByCreated_messagesOf hdates]
  constructor
  · intro heq
    exact heq ▸ List.prefix_rfl
  · intro hprefix
    have heq := tapsOf_eq_append hw hprefix
    rw [hdone, List.append_nil] at heq
    exact heq.symm

/-- Two taps whose blocks run in the given order. -/
def twoTaps (first second : ℕ) : List (Event ℕ) := [
  .tap 0 "c1" "one",
  .tap 0 "c1" "two",
  .runBlock first 5 "m1",
  .runBlock second 9 "m2"]

theorem twoTaps_clock (first second : ℕ) :
    Along (step fun _ => "u") (ClockMovedOn 0) World.init (twoTaps first second) := by
  refine ⟨trivial, fun v hv => ⟨trivial, fun u hu => ⟨?_, fun t ht => ⟨?_, fun _ _ => trivial⟩⟩⟩⟩
  · obtain rfl := Option.some.inj hv
    obtain rfl := Option.some.inj hu
    exact fun _ _ _ d hd => nomatch hd
  · obtain rfl := Option.some.inj hv
    obtain rfl := Option.some.inj hu
    obtain ⟨t', -, -, rfl⟩ := runBlock_eq_some.mp ht
    intro _ _ _ d hd _
    obtain rfl := List.mem_singleton.mp hd
    exact show (5 : Date) < 9 by decide

theorem inTapOrder_twoTaps :
    ∃ w, run (step fun _ => "u") World.init (twoTaps 0 0) = some w ∧ InTapOrder 0 "c1" w := by
  obtain ⟨w, hrun⟩ : ∃ w, run (step fun _ => "u") World.init (twoTaps 0 0) = some w :=
    ⟨_, rfl⟩
  have hdone : waiting 0 "c1" w = [] := by
    obtain rfl := Option.some.inj hrun
    rfl
  refine ⟨w, hrun, (inTapOrder_iff (fun _ => "u") hrun 0 "c1" (twoTaps_clock 0 0) hdone).mpr ?_⟩
  refine ⟨trivial, fun t ht => ⟨trivial, fun u hu => ⟨?_, fun v hv => ⟨?_, fun _ _ => trivial⟩⟩⟩⟩
  · intro _ _ _
    simp
  · intro _ _ _
    simp

/-- The block of the second tap may run first. -/
theorem not_inTapOrder :
    ¬ ∀ (es : List (Event ℕ)) (w : World ℕ),
      run (step fun _ => "u") World.init es = some w →
        Along (step fun _ => "u") (ClockMovedOn 0) World.init es → waiting 0 "c1" w = [] →
          InTapOrder 0 "c1" w := by
  intro h
  obtain ⟨w, hrun⟩ : ∃ w, run (step fun _ => "u") World.init (twoTaps 1 0) = some w :=
    ⟨_, rfl⟩
  have hdates : DatesIncrease 0 w :=
    run_invariant_along (fun _ _ _ hi hc ht => step_datesIncrease hi hc ht)
      (init_datesIncrease 0) (twoTaps_clock 1 0) hrun
  obtain ⟨hdone, htaps, hran⟩ : waiting 0 "c1" w = [] ∧
      (tapsOf 0 "c1" w).map Tap.serial = [0, 1] ∧ (ran 0 "c1" w).map Tap.serial = [1, 0] := by
    obtain rfl := Option.some.inj hrun
    decide
  have horder := h (twoTaps 1 0) w hrun (twoTaps_clock 1 0) hdone
  rw [InTapOrder, sortedByCreated_messagesOf hdates] at horder
  have hserials := congrArg (List.map Tap.serial) horder
  rw [htaps] at hserials
  exact absurd (hran.symm.trans hserials) (by decide)

end TinkoffChat.SendOrder

import TinkoffChat.PartialRuns
import Mathlib.Data.List.Count

/-!
The snapshot listeners that FireStoreService leaves at Firestore. The listener
of the channels is kept in a field that the next call overwrites and deinit
reads, the listener of a conversation is not kept at all. A registration that
is dropped stays live, so only the last channel listener is ever removed.
-/
namespace TinkoffChat.SnapshotListeners

open PartialRuns

/-- The live listeners of the channels by their registrations, those of conversations by
their channels, the fields of the service, and the conversation screen now open. -/
structure State where
  channelListeners : List ℕ
  messageListeners : List String
  collectionListener : Option ℕ
  registrations : ℕ
  screen : Option String
  isDeinitialised : Bool

def State.init : State := ⟨[], [], none, 0, none, false⟩

inductive Event
  | updateChannels
  | openScreen (identifier : String)
  | closeScreen
  | deinitialise

/-- `collectionListener = reference.addSnapshotListener { … }`. -/
def updateChannels (s : State) : State :=
  { s with
    channelListeners := s.channelListeners ++ [s.registrations]
    collectionListener := some s.registrations
    registrations := s.registrations + 1 }

/-- The registration is dropped. -/
def updateMessages (identifier : String) (s : State) : State :=
  { s with
    messageListeners := s.messageListeners ++ [identifier]
    registrations := s.registrations + 1 }

/-- `collectionListener?.remove()`. -/
def deinitialise (s : State) : State :=
  { s with
    channelListeners :=
      s.collectionListener.elim s.channelListeners fun l => s.channelListeners.erase l
    isDeinitialised := true }

/-- The screen asks for its messages when it is loaded and keeps the service while it is
open; closing it only removes its observers. -/
def step (s : State) (e : Event) : Option State :=
  if s.isDeinitialised then none
  else match e with
    | .updateChannels => some (updateChannels s)
    | .openScreen identifier =>
      if s.screen = none then
        some (updateMessages identifier { s with screen := some identifier })
      else none
    | .closeScreen => s.screen.map fun _ => { s with screen := none }
    | .deinitialise => if s.screen = none then some (deinitialise s) else none

/-- How often a change to the messages of a channel is handled when it is delivered. -/
def handlings (s : State) (identifier : String) : ℕ := s.messageListeners.count identifier

/-- At most one listener of the channels and one of the open screen, so that no message
change is handled twice, and none once the service is gone. -/
structure NoPileUp (s : State) : Prop where
  channels : s.channelListeners.length ≤ 1
  messages : s.messageListeners.length ≤ if s.screen.isSome then 1 else 0
  handled : ∀ identifier, handlings s identifier ≤ 1
  removed : s.isDeinitialised → s.channelListeners = [] ∧ s.messageListeners = []

/-- The channels are not listened to yet when updateChannels is called, and no screen
is closed. -/
def Sparing (s : State) : Event → Prop
  | .updateChannels => s.collectionListener = none
  | .closeScreen => False
  | _ => True

/-- The listeners of a run without waste: the one kept, and the one of the open screen. -/
structure Kept (s : State) : Prop where
  channels_eq : s.channelListeners =
    if s.isDeinitialised then [] else s.collectionListener.toList
  messages_eq : s.messageListeners = s.screen.toList
  screen_none : s.isDeinitialised → s.screen = none

theorem kept_noPileUp {s : State} (hs : Kept s) : NoPileUp s := by
  have hmessages : s.messageListeners.length ≤ if s.screen.isSome then 1 else 0 := by
    rw [hs.messages_eq]
    cases s.screen <;> simp
  refine ⟨?_, hmessages, ?_, ?_⟩
  · rw [hs.channels_eq]
    cases s.isDeinitialised <;> cases s.collectionListener <;> simp
  · intro identifier
    have hone : (if s.screen.isSome then 1 else 0) ≤ 1 := by split <;> omega
    exact Nat.le_trans List.count_le_length (Nat.le_trans hmessages hone)
  · intro h
    rw [hs.channels_eq, if_pos h, hs.messages_eq, hs.screen_none h]
    exact ⟨rfl, rfl⟩

theorem step_kept {s t : State} {e : Event} (hs : Kept s) (he : Sparing s e)
    (h : step s e = some t) : Kept t := by
  unfold step at h
  split at h
  · cases h
  · rename_i halive
    have hchannels := hs.channels_eq
    rw [if_neg halive] at hchannels
    cases e with
    | updateChannels =>
      obtain rfl := Option.some.inj h
      have hnone : s.collectionListener = none := he
      refine ⟨?_, hs.messages_eq, fun hd => absurd hd halive⟩
      simp [updateChannels, hchannels, hnone, halive]
    | openScreen identifier =>
      obtain ⟨hclosed, heq⟩ := Option.ite_none_right_eq_some.mp h
      obtain rfl := Option.some.inj heq
      have hmessages := hs.messages_eq
      refine ⟨hs.channels_eq, ?_, fun hd => absurd hd halive⟩
      simp [updateMessages, hmessages, hclosed]
    | closeScreen => exact absurd he id
    | deinitialise =>
      obtain ⟨hclosed, heq⟩ := Option.ite_none_right_eq_some.mp h
      obtain rfl := Option.some.inj heq
      refine ⟨?_, hs.messages_eq, fun _ => hclosed⟩
      cases hl : s.collectionListener <;> simp [deinitialise, hchannels, hl]

/-- A step after a run without waste piles nothing up exactly when it is sparing too. -/
theorem step_noPileUp_iff {s t : State} {e : Event} (hs : Kept s) (h : step s e = some t) :
    NoPileUp t ↔ Sparing s e := by
  refine ⟨fun hnot => ?_, fun he => kept_noPileUp (step_kept hs he h)⟩
  unfold step at h
  split at h
  · cases h
  · rename_i halive
    cases e with
    | updateChannels =>
      obtain rfl := Option.some.inj h
      have hone := hnot.channels
      have hchannels := hs.channels_eq
      rw [if_neg halive] at hchannels
      cases hl : s.collectionListener with
      | none => exact hl
      | some l => simp [updateChannels, hchannels, hl] at hone
    | openScreen identifier => trivial
    | closeScreen =>
      obtain ⟨identifier, hopen, rfl⟩ := Option.map_eq_some_iff.mp h
      have hnone := hnot.messages
      have hmessages := hs.messages_eq
      simp [hmessages, hopen] at hnone
    | deinitialise => trivial

theorem init_kept : Kept State.init := ⟨rfl, rfl, fun h => absurd h Bool.false_ne_true⟩

/-- In every state of a run the listeners have not piled up if and only if the channels
are asked for at most once and no screen is closed. -/
theorem noPileUp_iff {es : List Event} {t : State} (h : run step State.init es = some t) :
    (∀ fs, fs <+: es → ∀ v, run step State.init fs = some v → NoPileUp v) ↔
      Along step Sparing State.init es :=
  forall_prefix_iff_along (fun _ hs => kept_noPileUp hs)
    (fun _ _ _ hs h => step_noPileUp_iff hs h) (fun _ _ _ hs he h => step_kept hs he h)
    init_kept h

theorem noPileUp_oneScreen :
    ∃ t, run step State.init [.updateChannels, .openScreen "c1"] = some t ∧ NoPileUp t := by
  obtain ⟨t, hrun⟩ : ∃ t, run step State.init [.updateChannels, .openScreen "c1"] = some t :=
    ⟨_, rfl⟩
  have hsparing : Along step Sparing State.init [.updateChannels, .openScreen "c1"] :=
    ⟨rfl, fun _ _ => ⟨trivial, fun _ _ => trivial⟩⟩
  exact ⟨t, hrun, (noPileUp_iff hrun).mpr hsparing _ (List.prefix_refl _) t hrun⟩

/-- One conversation opened twice: its changes are handled by two listeners. -/
theorem not_noPileUp :
    ¬ ∀ (es : List Event) (t : State), run step State.init es = some t → NoPileUp t := by
  intro h
  have htwice := h [.openScreen "c1", .closeScreen, .openScreen "c1"] _ rfl
  exact absurd (htwice.handled "c1") (by decide)

end TinkoffChat.SnapshotListeners

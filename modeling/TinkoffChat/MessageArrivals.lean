import TinkoffChat.ChatClient

/-!
What message snapshots do to the channel table. Each of them saves the channel
that its screen captured when it was opened, so the table stays what the channel
events alone make of it exactly as long as every captured channel is still the
stored one when a message snapshot is handled.
-/
namespace TinkoffChat.MessageArrivals

open ChangeLog Documents LocalStore FireStoreService ChatClient PartialRuns

/-- When a message snapshot is handled, the row of the listener's channel is
there with the captured values. -/
def CapturedIsStored (c : Client) : Event → Prop
  | .messageSnapshot listener (some _) => ∀ channel, c.listeners[listener]? = some channel →
      c.service.store.channels channel.identifier = some (ChannelDb.init channel)
  | _ => True

/-- The channel table is what the channel events handled so far leave by themselves. -/
def ChannelsAsAlone (s : Service) (es : List Event) (c : Client) : Prop :=
  c.service.store.channels = (channelsAlone s es).store.channels

/-- One event keeps the two tables equal exactly when the captured channel is stored. -/
theorem step_channels_iff {c d : Client} {e : Event} (s : Service)
    (hs : c.service.store.channels = s.store.channels) (hd : step c e = some d) :
    d.service.store.channels = (handleChannels s e).store.channels ↔ CapturedIsStored c e := by
  cases e with
  | channelSnapshot snapshot =>
    obtain rfl := Option.some.inj hd
    exact iff_of_true (updateChannels_channels_congr hs snapshot) trivial
  | openConversation identifier =>
    obtain ⟨row, -, rfl⟩ := Option.map_eq_some_iff.mp hd
    exact iff_of_true hs trivial
  | messageSnapshot listener snapshot =>
    obtain ⟨channel, hchannel, rfl⟩ := Option.map_eq_some_iff.mp hd
    cases snapshot with
    | none => exact iff_of_true hs trivial
    | some documentChanges =>
      change (updateMessages channel (some documentChanges) c.service).store.channels =
        s.store.channels ↔ _
      rw [updateMessages_channels, ← hs, apply_put_eq_self_iff]
      constructor
      · intro hstored other hother
        obtain rfl : channel = other := Option.some.inj (hchannel.symm.trans hother)
        exact hstored
      · intro hcaptured
        exact hcaptured channel hchannel
  | deleteRow identifier =>
    obtain ⟨row, -, rfl⟩ := Option.map_eq_some_iff.mp hd
    refine iff_of_true ?_ trivial
    simp [handleChannels, hs]

private theorem asAlone_iff_of_eq {c d : Client} {es : List Event} (s : Service)
    (hs : c.service.store.channels = s.store.channels) (hrun : run step c es = some d) :
    (∀ fs, fs <+: es → ∀ v, run step c fs = some v → ChannelsAsAlone s fs v) ↔
      Along step CapturedIsStored c es := by
  induction es generalizing c s with
  | nil =>
    refine iff_of_true ?_ trivial
    intro fs hfs v hv
    obtain rfl := List.prefix_nil.mp hfs
    obtain rfl : c = v := Option.some.inj hv
    exact hs
  | cons e es ih =>
    obtain ⟨t, ht, hrest⟩ := run_cons_eq_some.mp hrun
    rw [along_cons_of_step ht]
    have hstep := step_channels_iff s hs ht
    constructor
    · intro h
      have hfirst := h [e] (List.prefix_append [e] es) t (by rw [run_cons_of_step ht, run_nil])
      refine ⟨hstep.mp hfirst, (ih (handleChannels s e) hfirst hrest).mp ?_⟩
      intro fs hfs v hv
      exact h (e :: fs) ((List.prefix_cons_inj e).mpr hfs) v (by rw [run_cons_of_step ht, hv])
    · rintro ⟨hcaptured, halong⟩ fs hfs v hv
      cases fs with
      | nil =>
        obtain rfl : c = v := Option.some.inj hv
        exact hs
      | cons f fs =>
        obtain ⟨rfl, hfs'⟩ := List.cons_prefix_cons.mp hfs
        rw [run_cons_of_step ht] at hv
        exact (ih (handleChannels s f) (hstep.mpr hcaptured) hrest).mpr halong fs hfs' v hv

/-- In every state of a run the channel table is that of the channel events
alone, exactly when no message snapshot of the run brings a captured channel
that is no longer the stored one. -/
theorem channelsAsAlone_iff {c d : Client} {es : List Event} (hrun : run step c es = some d) :
    (∀ fs, fs <+: es → ∀ v, run step c fs = some v → ChannelsAsAlone c.service fs v) ↔
      Along step CapturedIsStored c es :=
  asAlone_iff_of_eq c.service rfl hrun

def generalAdded : Event :=
  .channelSnapshot (some [⟨.added, "c1", Fields.ofList [("name", .string "General")]⟩])

def generalRenamed : Event :=
  .channelSnapshot (some [⟨.modified, "c1", Fields.ofList [("name", .string "Main")]⟩])

/-- Messages that arrive while the captured channel is up to date do no harm. -/
theorem channelsAsAlone_upToDate :
    ∃ d, run step Client.empty [generalAdded, .openConversation "c1",
        .messageSnapshot 0 (some [])] = some d ∧
      ChannelsAsAlone Service.empty [generalAdded, .openConversation "c1",
        .messageSnapshot 0 (some [])] d := by
  obtain ⟨d, hrun⟩ : ∃ d, run step Client.empty [generalAdded, .openConversation "c1",
      .messageSnapshot 0 (some [])] = some d := ⟨_, rfl⟩
  refine ⟨d, hrun, (channelsAsAlone_iff hrun).mpr ?_ _ List.prefix_rfl d hrun⟩
  refine ⟨trivial, fun t ht => ⟨trivial, fun u hu => ⟨?_, fun _ _ => trivial⟩⟩⟩
  obtain rfl := Option.some.inj ht
  obtain rfl := Option.some.inj hu
  intro channel hchannel
  obtain rfl := Option.some.inj hchannel
  decide

/-- A message that arrives after a rename brings the old name back. -/
theorem not_channelsAsAlone :
    ¬ ∀ (es : List Event) (d : Client), run step Client.empty es = some d →
      ChannelsAsAlone Service.empty es d := by
  intro h
  have hname := congrFun (h [generalAdded, .openConversation "c1", generalRenamed,
    .messageSnapshot 0 (some [])] _ rfl) "c1"
  exact absurd hname (by decide)

end TinkoffChat.MessageArrivals

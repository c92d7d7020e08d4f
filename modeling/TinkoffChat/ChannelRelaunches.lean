import TinkoffChat.ChannelSync

/-!
The channels of a client over relaunches of the application. The rows are kept, and so
are the writes still to arrive; the listeners are not, and the first snapshot that the
next process is shown is the whole of some view of the collection, with the client's own
writes in it or not yet. Nothing in it names a document that was removed in the meantime,
so the row of such a document is left behind.
-/
namespace TinkoffChat.ChannelRelaunches

open ChangeLog TableVersions LocalStore FireStoreService PartialRuns
open ChannelWorld hiding Event step
open ChannelSnapshots hiding step_invariant
open ChannelSync hiding CapturedIsStored step_inStep

variable {User : Type*}

inductive Event (User : Type*)
  | sync (event : ChannelWorld.Event User)
  | relaunch (user : User)

/-- The new listener has been shown nothing, which is the empty version of the collection. -/
def relaunch [DecidableEq User] (w : World User) (user : User) : World User :=
  { w with
    client := Function.update w.client user { w.client user with listeners := [] }
    position := Function.update w.position user 0
    source := Function.update w.source user fun _ => .version 0 }

def step [DecidableEq User] (w : World User) : Event User → Option (World User)
  | .sync event => ChannelWorld.step w event
  | .relaunch user => some (relaunch w user)

def CapturedIsStored (user : User) (identifier : String) (w : World User) : Event User → Prop
  | .sync event => ChannelSync.CapturedIsStored user identifier w event
  | .relaunch _ => True

/-- The client has a row without a document in what it was shown last. -/
def Stale (user : User) (identifier : String) (w : World User) : Prop :=
  (w.client user).service.store.channels identifier ≠ none ∧ w.shown user identifier = none

/-- The application is relaunched while the row is there. -/
def Kept (user : User) (identifier : String) (w : World User) (e : Event User) : Prop :=
  e = .relaunch user ∧ (w.client user).service.store.channels identifier ≠ none

/-- The client is shown the document, or the row is deleted by hand. -/
def Settled [DecidableEq User] (user : User) (identifier : String) (w : World User) :
    Event User → Prop
  | .sync (.deliver v _ named) => v = user ∧ w.showing user named identifier ≠ none
  | .sync (.act v (.deleteRow other)) => v = user ∧ other = identifier
  | _ => False

/-- The row was there when the application was relaunched, and the document has not been
shown since. -/
def LeftBehind [DecidableEq User] (user : User) (identifier : String)
    (es : List (Event User)) : Prop :=
  Since step (Kept user identifier) (Settled user identifier) World.init es

/-- A document that was not shown and is not leaves the row as it is. -/
theorem deliver_of_absent [DecidableEq User] {w : World User} (hw : Invariant w) {user : User}
    {named : List (String × Option ℕ)} {identifier : String}
    (hbefore : w.shown user identifier = none)
    (hafter : w.showing user named identifier = none) (s : Service) :
    (updateChannels (some (snapshot w user named)) s).store.channels identifier =
      s.store.channels identifier := by
  rw [updateChannels_channels]
  apply replay_of_not_mem
  rintro c hc rfl
  obtain ⟨document, hchange, -⟩ := exists_documentChange hw hc
  rw [documentChange, hbefore, hafter] at hchange
  cases hchange

theorem stale_of_same {w v : World User} {user : User} {identifier : String}
    (h : Stale user identifier w)
    (hchannels : (v.client user).service.store.channels identifier =
      (w.client user).service.store.channels identifier)
    (hshown : v.shown user identifier = w.shown user identifier) : Stale user identifier v := by
  rwa [Stale, hchannels, hshown]

/-- Apart from the row action on it, nothing that a client does by itself removes a row. -/
theorem act_keeps_row {c d : ChatClient.Client} {e : ChatClient.Event} {identifier : String}
    (hevent : ∀ snapshot, e ≠ .channelSnapshot snapshot) (he : e ≠ .deleteRow identifier)
    (h : ChatClient.step c e = some d) (hrow : c.service.store.channels identifier ≠ none) :
    d.service.store.channels identifier ≠ none := by
  cases e with
  | channelSnapshot snapshot => exact absurd rfl (hevent snapshot)
  | openConversation other =>
    obtain ⟨row, -, rfl⟩ := Option.map_eq_some_iff.mp h
    exact hrow
  | messageSnapshot listener snapshot =>
    obtain ⟨channel, -, rfl⟩ := Option.map_eq_some_iff.mp h
    cases snapshot with
    | none => exact hrow
    | some documentChanges =>
      simp only [updateMessages_channels]
      by_cases hkey : channel.identifier = identifier
      · rw [← hkey, apply_put_self]
        exact Option.some_ne_none _
      · rwa [apply_put_of_ne _ _ hkey]
  | deleteRow other =>
    obtain ⟨row, -, rfl⟩ := Option.map_eq_some_iff.mp h
    have hkey : other ≠ identifier := fun heq => he (heq ▸ rfl)
    simp only [deleteChannel_channels, deleteChannelMessages_channels]
    rwa [apply_drop_of_ne _ hkey]

section Clients

variable [DecidableEq User]

theorem relaunch_invariant {w : World User} (hw : Invariant w) (user : User) :
    Invariant (relaunch w user) := by
  have hclient : FromLog (Known w user) { w.client user with listeners := [] } :=
    { hw.clients user with listeners := fun _ h => absurd h List.not_mem_nil }
  have hclients := client_invariant hw user hclient (List.Subset.refl _)
  refine { hclients with
    position_le := fun v => ?_, upTo := fun v c => ?_, pending := fun v c data hown => ?_ }
  · change Function.update w.position user 0 v ≤ w.log.length
    by_cases hv : v = user
    · rw [hv, Function.update_self]
      exact Nat.zero_le _
    · rw [Function.update_of_ne hv]
      exact hw.position_le v
  · change UpTo w.log (Function.update w.position user 0 v) c
      (Function.update w.source user (fun _ => .version 0) v c)
    by_cases hv : v = user
    · rw [hv, Function.update_self, Function.update_self]
      exact ⟨Nat.zero_le _, Or.inl (Nat.le_refl _)⟩
    · rw [Function.update_of_ne hv, Function.update_of_ne hv]
      exact hw.upTo v c
  · change Function.update w.source user (fun _ => .version 0) v c = _ at hown
    by_cases hv : v = user
    · rw [hv, Function.update_self] at hown
      cases hown
    · rw [Function.update_of_ne hv] at hown
      have hpending := hclients.pending v c data hown
      cases data <;> exact hpending

theorem step_invariant {w v : World User} {e : Event User} (hw : Invariant w)
    (h : step w e = some v) : Invariant v := by
  cases e with
  | sync event => exact ChannelSnapshots.step_invariant hw h
  | relaunch user =>
    obtain rfl := Option.some.inj h
    exact relaunch_invariant hw user

@[simp] theorem relaunch_channels (w : World User) (user other : User) :
    ((relaunch w user).client other).service.store.channels =
      (w.client other).service.store.channels := by
  by_cases hv : other = user
  · subst hv
    simp [relaunch]
  · simp [relaunch, Function.update_of_ne hv]

theorem relaunch_shown_self (w : World User) (user : User) (c : String) :
    (relaunch w user).shown user c = none := by
  change ((Function.update w.source user fun _ => .version 0) user c).data w.log c = none
  rw [Function.update_self]
  rfl

theorem relaunch_shown_of_ne (w : World User) {user other : User} (h : other ≠ user) :
    (relaunch w user).shown other = w.shown other := by
  funext c
  change ((Function.update w.source user fun _ => .version 0) other c).data w.log c = _
  rw [Function.update_of_ne h]
  rfl

theorem relaunch_stale {w : World User} {user : User} {identifier : String}
    (hrow : (w.client user).service.store.channels identifier ≠ none) :
    Stale user identifier (relaunch w user) :=
  ⟨by rwa [relaunch_channels], relaunch_shown_self w user identifier⟩

/-- A row left behind stays as long as the document is not shown. -/
theorem step_stale {w v : World User} {e : Event User} (hw : Invariant w) {user : User}
    {identifier : String} (he : ¬ Settled user identifier w e) (h : step w e = some v)
    (hs : Stale user identifier w) : Stale user identifier v := by
  cases e with
  | relaunch other =>
    obtain rfl := Option.some.inj h
    by_cases hv : user = other
    · subst hv
      exact relaunch_stale hs.1
    · exact stale_of_same hs (by rw [relaunch_channels]) (by rw [relaunch_shown_of_ne w hv])
  | sync event =>
    have hstep : ChannelWorld.step w event = some v := h
    have hshown := step_shown hw hstep user
    rcases step_client hstep user with ⟨hclient, hdeliver, -⟩ | ⟨index, path, rfl, -, hclient⟩ |
      ⟨position, named, rfl, rfl⟩ | ⟨event, c, rfl, hevent, hc, hclient⟩
    · have hsame := congrFun (hshown hdeliver) identifier
      exact stale_of_same hs (by rw [hclient]) hsame
    · have hsame := congrFun (hshown (by simp)) identifier
      exact stale_of_same hs (by rw [hclient]) hsame
    · have hafter : w.showing user named identifier = none := by
        by_contra hshowing
        exact he ⟨rfl, hshowing⟩
      constructor
      · rw [delivered_client_self, deliver_of_absent hw hs.2 hafter]
        exact hs.1
      · rw [delivered_shown_self, hafter]
    · have hsame := congrFun (hshown (by simp)) identifier
      have hdelete : event ≠ .deleteRow identifier := by
        rintro rfl
        exact he ⟨rfl, rfl⟩
      refine ⟨?_, hsame.trans hs.2⟩
      rw [hclient]
      exact act_keeps_row hevent hdelete hc hs.1

/-- A step that shows the document or deletes the row brings a stale row in step. -/
theorem step_inStep_of_settled {w v : World User} {e : Event User} (hw : Invariant w) {user : User}
    {identifier : String} (he : Settled user identifier w e) (h : step w e = some v)
    (hs : Stale user identifier w) : InStep user identifier v := by
  cases e with
  | relaunch other => exact he.elim
  | sync event =>
    cases event with
    | deliver other position named =>
      obtain ⟨-, rfl⟩ := deliver_eq_some h
      obtain ⟨rfl, hafter⟩ := he
      left
      rcases deliver_channels hw other named (w.client other).service identifier with
        hnew | ⟨-, hshown⟩
      · rwa [delivered_client_self, delivered_shown_self]
      · exact absurd (hshown.trans hs.2) hafter
    | act other event =>
      cases event with
      | deleteRow i =>
        obtain ⟨rfl, rfl⟩ := he
        obtain ⟨hnone, hrequest⟩ := deleteRow_effect h
        exact Or.inr ⟨hnone, Or.inl hrequest⟩
      | _ => exact he.elim
    | _ => exact he.elim

omit [DecidableEq User] in
theorem not_stale_of_inStep {w : World User} {user : User} {identifier : String}
    (hi : InStep user identifier w) : ¬ Stale user identifier w := by
  rintro ⟨hrow, hshown⟩
  rcases hi with heq | ⟨hnone, -⟩
  · rw [heq, storedRow, hshown] at hrow
    exact hrow rfl
  · exact hrow hnone

theorem relaunch_inStep {w : World User} {user other : User} {identifier : String}
    (hkept : ¬ Kept user identifier w (.relaunch other)) (hi : InStep user identifier w) :
    InStep user identifier (relaunch w other) := by
  by_cases hv : user = other
  · subst hv
    have hrow : (w.client user).service.store.channels identifier = none := by
      by_contra hrow
      exact hkept ⟨rfl, hrow⟩
    left
    rw [relaunch_channels, hrow, storedRow, relaunch_shown_self]
    rfl
  · refine inStep_of_same ?_ (by rw [relaunch_channels]) (by rw [relaunch_shown_of_ne w hv]) hi
    simp [Deleted, relaunch, Function.update_of_ne hv]

/-- Unless a relaunch keeps the row, it stays in step. -/
theorem step_inStep {w v : World User} {e : Event User} (hw : Invariant w) {user : User}
    {identifier : String} (hcaptured : CapturedIsStored user identifier w e)
    (hkept : ¬ Kept user identifier w e) (h : step w e = some v)
    (hi : InStep user identifier w) : InStep user identifier v := by
  cases e with
  | sync event => exact ChannelSync.step_inStep hw hcaptured h hi
  | relaunch other =>
    obtain rfl := Option.some.inj h
    exact relaunch_inStep hkept hi

theorem step_stale_of_kept {w v : World User} {e : Event User} {user : User} {identifier : String}
    (hkept : Kept user identifier w e) (h : step w e = some v) : Stale user identifier v := by
  obtain ⟨rfl, hrow⟩ := hkept
  obtain rfl := Option.some.inj h
  exact relaunch_stale hrow

/-- The row is in step with the version shown last, or stale. -/
def Accounted (user : User) (identifier : String) (w : World User) : Prop :=
  Invariant w ∧ (InStep user identifier w ∨ Stale user identifier w)

theorem step_accounted {w v : World User} {e : Event User} {user : User} {identifier : String}
    (hw : Accounted user identifier w) (hcaptured : CapturedIsStored user identifier w e)
    (h : step w e = some v) : Accounted user identifier v := by
  obtain ⟨hinvariant, hcases⟩ := hw
  refine ⟨step_invariant hinvariant h, ?_⟩
  by_cases hkept : Kept user identifier w e
  · exact Or.inr (step_stale_of_kept hkept h)
  · rcases hcases with hi | hs
    · exact Or.inl (step_inStep hinvariant hcaptured hkept h hi)
    · by_cases hsettled : Settled user identifier w e
      · exact Or.inl (step_inStep_of_settled hinvariant hsettled h hs)
      · exact Or.inr (step_stale hinvariant hsettled h hs)

omit [DecidableEq User] in
theorem init_accounted (user : User) (identifier : String) :
    Accounted user identifier (World.init : World User) :=
  ⟨init_invariant, Or.inl (Or.inl rfl)⟩

/-- The stale rows are those that a relaunch has left behind. -/
theorem stale_iff_leftBehind {w : World User} {es : List (Event User)} {user : User}
    {identifier : String} (h : run step World.init es = some w)
    (ha : Along step (CapturedIsStored user identifier) World.init es) :
    Stale user identifier w ↔ LeftBehind user identifier es := by
  refine run_since_iff_along (fun w e v hw he hv => step_accounted hw he hv) ?_ ?_ ?_
    (init_accounted user identifier) (fun hs => hs.1 rfl) ha h
  · exact fun w e v _ _ hv hkept => step_stale_of_kept hkept hv
  · rintro w e v ⟨hw, hi | hs⟩ he hv hkept hsettled
    · exact not_stale_of_inStep (step_inStep hw he hkept hv hi)
    · exact not_stale_of_inStep (step_inStep_of_settled hw hsettled hv hs)
  · rintro w e v ⟨hw, hi | hs⟩ he hv hkept hsettled
    · exact iff_of_false (not_stale_of_inStep (step_inStep hw he hkept hv hi))
        (not_stale_of_inStep hi)
    · exact iff_of_true (step_stale hw hsettled hv hs) hs

theorem inStep_of_not_leftBehind {w : World User} {es : List (Event User)} {user : User}
    {identifier : String} (h : run step World.init es = some w)
    (ha : Along step (CapturedIsStored user identifier) World.init es)
    (hleft : ¬ LeftBehind user identifier es) : Invariant w ∧ InStep user identifier w := by
  obtain ⟨hw, hcases⟩ := run_invariant_along (fun _ _ _ hw he hv => step_accounted hw he hv)
    (init_accounted user identifier) ha h
  exact ⟨hw, hcases.resolve_right (mt (stale_iff_leftBehind h ha).mp hleft)⟩

/-- Only a relaunch leaves rows behind. -/
theorem not_leftBehind {es : List (Event User)} {user : User} (h : .relaunch user ∉ es)
    (identifier : String) : ¬ LeftBehind user identifier es := by
  rintro ⟨before, e, after, t, u, rfl, -, ⟨rfl, -⟩, -⟩
  exact h (List.mem_append_right _ List.mem_cons_self)

/-- A client that has received the present version, whose own writes to the channel's document
have arrived, has the channel's row as the document says unless the row was left behind by a
relaunch; then the client has a row, and there is no document. -/
theorem channels_relaunched {w : World User} {es : List (Event User)} {user : User}
    {identifier : String} (h : run step World.init es = some w)
    (ha : Along step (CapturedIsStored user identifier) World.init es)
    (hposition : w.position user = w.log.length)
    (hadding : ∀ d ∈ w.adding, d.user = user → d.documentID ≠ identifier)
    (hrequests : .channel identifier ∉ (w.client user).service.requests) :
    ((w.client user).service.store.channels identifier = storedRow (current w.log) identifier ↔
        ¬ LeftBehind user identifier es) ∧
      (LeftBehind user identifier es → current w.log identifier = none ∧
        (w.client user).service.store.channels identifier ≠ none) := by
  have hw : Invariant w :=
    run_invariant (fun _ _ _ hi hs => step_invariant hi hs) init_invariant h
  have hleft : LeftBehind user identifier es → current w.log identifier = none ∧
      (w.client user).service.store.channels identifier ≠ none := by
    intro hleft
    obtain ⟨hrow, hshown⟩ := (stale_iff_leftBehind h ha).mpr hleft
    rw [shown_present hw hposition hadding hrequests] at hshown
    exact ⟨hshown, hrow⟩
  refine ⟨⟨fun heq hbehind => ?_, fun hbehind => ?_⟩, hleft⟩
  · obtain ⟨hnone, hrow⟩ := hleft hbehind
    rw [heq, storedRow, hnone] at hrow
    exact hrow rfl
  · exact row_of_inStep hw (inStep_of_not_leftBehind h ha hbehind).2 hposition hadding hrequests

end Clients

/-- One user is shown two channels, one of them before it has arrived, and leaves; the other
deletes the first. -/
def removedMeanwhile : List (Event ℕ) := [
  .sync (.createChannel 0 "General" "c1"), .sync (.createChannel 1 "News" "c2"),
  .sync (.deliver 0 0 [("c1", none)]), .sync (.addArrives 0), .sync (.addArrives 0),
  .sync (.deliver 0 2 [("c2", some 2)]), .sync (.deliver 1 2 [("c1", some 2), ("c2", some 2)]),
  .relaunch 0, .sync (.act 1 (.deleteRow "c1")), .sync (.requestArrives 1 0),
  .sync (.deliver 0 3 [("c1", some 3), ("c2", some 3)])]

theorem leftBehind_removedMeanwhile : LeftBehind 0 "c1" removedMeanwhile := by
  obtain ⟨t, ht⟩ : ∃ t, run step World.init (removedMeanwhile.take 7) = some t := ⟨_, rfl⟩
  refine ⟨removedMeanwhile.take 7, .relaunch 0, removedMeanwhile.drop 8, t, relaunch t 0, rfl, ht,
    ⟨rfl, ?_⟩, rfl, ?_⟩
  · obtain rfl := Option.some.inj ht
    decide
  · have hother : ¬ ((1 : ℕ) = 0 ∧ "c1" = "c1") := by decide
    refine ⟨hother, fun t₁ h₁ => ⟨id, fun t₂ h₂ => ⟨?_, fun _ _ => trivial⟩⟩⟩
    obtain rfl := Option.some.inj ht
    obtain rfl := Option.some.inj h₁
    obtain rfl := Option.some.inj h₂
    rintro ⟨-, hshown⟩
    exact hshown rfl

theorem channels_relaunched_removedMeanwhile :
    ∃ w, run step World.init removedMeanwhile = some w ∧ current w.log "c1" = none ∧
      (w.client 0).service.store.channels "c1" ≠ none := by
  obtain ⟨w, hrun⟩ : ∃ w, run step World.init removedMeanwhile = some w := ⟨_, rfl⟩
  have halong : Along step (CapturedIsStored 0 "c1") World.init removedMeanwhile := by
    refine along_of_forall_mem (fun e he s => ?_) _
    simp only [removedMeanwhile, List.mem_cons, List.not_mem_nil, or_false] at he
    rcases he with rfl | rfl | rfl | rfl | rfl | rfl | rfl | rfl | rfl | rfl | rfl <;> trivial
  obtain ⟨hposition, hadding, hrequests⟩ : w.position 0 = w.log.length ∧ w.adding = [] ∧
      .channel "c1" ∉ (w.client 0).service.requests := by
    obtain rfl := Option.some.inj hrun
    exact ⟨rfl, rfl, by decide⟩
  have hnone : ∀ d ∈ w.adding, d.user = 0 → d.documentID ≠ "c1" := by
    rw [hadding]
    exact nofun
  have hleft := leftBehind_removedMeanwhile
  exact ⟨w, hrun, (channels_relaunched hrun halong hposition hnone hrequests).2 hleft⟩

end TinkoffChat.ChannelRelaunches

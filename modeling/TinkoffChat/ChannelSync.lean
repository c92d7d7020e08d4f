import TinkoffChat.ChannelSnapshots

/-!
The channels of several clients agree. Whatever the order in which writes arrive and
snapshots come, a client's row of a channel is that of the document as the client was
shown it last, or the client has none and the channel is deleted. So a client that has
received the present version, and has no write of its own under way, has just the rows
of the documents, and a channel that any client deletes goes from all of them.
-/
namespace TinkoffChat.ChannelSync

open ChangeLog TableVersions Documents LocalStore FireStoreService PartialRuns
open ChatClient (Client)
open ChannelWorld ChannelSnapshots

variable {User : Type*}

/-- When a message snapshot of the channel is handled, the row is there with the captured
values. -/
def CapturedIsStored (user : User) (identifier : String) (w : World User) : Event User → Prop
  | .act v (.messageSnapshot listener (some _)) => v = user →
      ∀ channel, (w.client v).listeners[listener]? = some channel →
        channel.identifier = identifier →
          (w.client v).service.store.channels identifier = some (ChannelDb.init channel)
  | _ => True

/-- The deletion of the channel is on its way from the client, or has been made. -/
def Deleted (user : User) (identifier : String) (w : World User) : Prop :=
  .channel identifier ∈ (w.client user).service.requests ∨ Gone w.log identifier

/-- The channel's row is that of the document as it is shown, or the client has none because
the channel is deleted. -/
def InStep (user : User) (identifier : String) (w : World User) : Prop :=
  (w.client user).service.store.channels identifier = storedRow (w.shown user) identifier ∨
    (w.client user).service.store.channels identifier = none ∧ Deleted user identifier w

section Clients

variable [DecidableEq User]

omit [DecidableEq User] in
theorem storedRow_congr {documents other : Table String Fields} {identifier : String}
    (h : documents identifier = other identifier) :
    storedRow documents identifier = storedRow other identifier := by
  rw [storedRow, h, storedRow]

/-- Once a delete request has arrived the document is gone. -/
theorem perform_gone {w : World User} (user : User) {identifier : String}
    (h : Logged w.log identifier) :
    Gone (w.perform user (.channel identifier)).log identifier := by
  rw [World.perform]
  split
  · refine ⟨logged_append h (.drop identifier), ?_⟩
    exact (congrFun (current_append_singleton ..) _).trans (apply_drop_self ..)
  · rename_i hdead
    have hnone : current w.log identifier = none := by simpa using hdead
    exact ⟨h, hnone⟩

/-- A document that is gone never comes back. -/
theorem step_gone {w v : World User} {e : Event User} (hw : Invariant w)
    (h : step w e = some v) {identifier : String} (hgone : Gone w.log identifier) :
    Gone v.log identifier := by
  cases e with
  | createChannel user name documentID =>
    obtain ⟨-, heq⟩ := Option.ite_none_right_eq_some.mp h
    obtain rfl := Option.some.inj heq
    exact hgone
  | addArrives index =>
    obtain ⟨d, hmem, rfl⟩ := Option.map_eq_some_iff.mp h
    refine hgone.append ?_
    rintro rfl
    exact absurd hgone.1 (hw.adding_fresh d (List.mem_of_getElem? hmem))
  | rewrite documentID data =>
    obtain ⟨⟨hlive, -⟩, heq⟩ := Option.ite_none_right_eq_some.mp h
    obtain rfl := Option.some.inj heq
    refine hgone.append ?_
    rintro rfl
    exact absurd hgone.2 (Option.isSome_iff_ne_none.mp hlive)
  | requestArrives user index =>
    obtain ⟨path, -, -, rfl⟩ := requestArrives_eq_some.mp h
    change Gone (w.perform user path).log identifier
    rcases perform_log w user path with heq | ⟨i, -, -, heq⟩
    · rwa [heq]
    · rw [heq]
      exact hgone.append fun _ => rfl
  | deliver user position named =>
    obtain ⟨-, rfl⟩ := deliver_eq_some h
    exact hgone
  | act user event =>
    obtain ⟨-, c, -, rfl⟩ := act_cases h
    exact hgone

/-- A delete request that arrives leaves no document, and none can come back. -/
theorem requestArrives_gone {w v : World User} (hw : Invariant w) {user : User} {index : ℕ}
    {identifier : String} (h : step w (.requestArrives user index) = some v)
    (hpath : (w.client user).service.requests[index]? = some (.channel identifier)) :
    Gone v.log identifier := by
  obtain ⟨path, hpath', hfollows, rfl⟩ := requestArrives_eq_some.mp h
  obtain rfl : path = .channel identifier := Option.some.inj (hpath'.symm.trans hpath)
  rcases (hw.clients user).requests identifier (List.mem_of_getElem? hpath) with
    hlogged | ⟨d, hd, huser, rfl⟩
  · exact perform_gone user hlogged
  · exact absurd rfl (hfollows d hd huser)

/-- A delete request under way stays so until it arrives. -/
theorem step_underWay {w v : World User} {e : Event User} (h : step w e = some v) {user : User}
    {identifier : String} (hpending : .channel identifier ∈ (w.client user).service.requests) :
    .channel identifier ∈ (v.client user).service.requests ∨
      ∃ index, e = .requestArrives user index ∧
        (w.client user).service.requests[index]? = some (.channel identifier) := by
  rcases step_client h user with ⟨hclient, -⟩ | ⟨index, path, rfl, hpath, hclient⟩ |
    ⟨position, named, -, rfl⟩ | ⟨event, c, -, -, hc, hclient⟩
  · exact Or.inl (hclient ▸ hpending)
  · by_cases hpath' : path = .channel identifier
    · exact Or.inr ⟨index, rfl, hpath.trans (congrArg some hpath')⟩
    · left
      rw [hclient]
      have hmem := (cons_eraseIdx_perm hpath).mem_iff.mpr hpending
      exact (List.mem_cons.mp hmem).resolve_left (Ne.symm hpath')
  · exact Or.inl (delivered_requests w user position named user hpending)
  · rw [hclient]
    exact Or.inl (act_requests hc hpending)

/-- A deletion under way is never forgotten, and one that was made is never undone. -/
theorem step_deleted {w v : World User} {e : Event User} (hw : Invariant w)
    (h : step w e = some v) {user : User} {identifier : String}
    (hd : Deleted user identifier w) : Deleted user identifier v := by
  rcases hd with hpending | hgone
  · rcases step_underWay h hpending with hstill | ⟨index, rfl, hpath⟩
    · exact Or.inl hstill
    · exact Or.inr (requestArrives_gone hw h hpath)
  · exact Or.inr (step_gone hw h hgone)

omit [DecidableEq User] in
theorem inStep_of_same {w v : World User} {user : User} {identifier : String}
    (hdeleted : Deleted user identifier w → Deleted user identifier v)
    (hchannels : (v.client user).service.store.channels identifier =
      (w.client user).service.store.channels identifier)
    (hshown : v.shown user identifier = w.shown user identifier)
    (hi : InStep user identifier w) : InStep user identifier v := by
  rw [InStep, hchannels, storedRow_congr hshown]
  exact hi.imp_right (And.imp_right hdeleted)

omit [DecidableEq User] in
/-- What a client does by itself leaves the channel's row, or deletes it and asks for
the deletion. -/
theorem act_channels {w : World User} {user : User} {identifier : String} {c : Client}
    {e : ChatClient.Event} (hevent : ∀ snapshot, e ≠ .channelSnapshot snapshot)
    (he : CapturedIsStored user identifier w (.act user e))
    (h : ChatClient.step (w.client user) e = some c) :
    c.service.store.channels identifier = (w.client user).service.store.channels identifier ∨
      c.service.store.channels identifier = none ∧ .channel identifier ∈ c.service.requests := by
  cases e with
  | channelSnapshot snapshot => exact absurd rfl (hevent snapshot)
  | openConversation other =>
    obtain ⟨row, -, rfl⟩ := Option.map_eq_some_iff.mp h
    exact Or.inl rfl
  | messageSnapshot listener snapshot =>
    obtain ⟨channel, hchannel, rfl⟩ := Option.map_eq_some_iff.mp h
    cases snapshot with
    | none => exact Or.inl rfl
    | some documentChanges =>
      left
      simp only [updateMessages_channels]
      by_cases hkey : channel.identifier = identifier
      · have hstored := he rfl channel hchannel hkey
        rw [hstored, ← hkey, apply_put_self]
      · exact apply_put_of_ne _ _ hkey
  | deleteRow other =>
    obtain ⟨row, hrow, rfl⟩ := Option.map_eq_some_iff.mp h
    simp only [deleteChannel_channels, deleteChannelMessages_channels]
    by_cases hkey : other = identifier
    · subst hkey
      refine Or.inr ⟨apply_drop_self _ _, ?_⟩
      have hfetch : (deleteChannelMessages other (w.client user).service).store.fetchChannels
          other = [other] := by
        rw [Store.fetchChannels, deleteChannelMessages_channels, hrow]
        rfl
      rw [deleteChannel_requests, hfetch]
      exact List.mem_append_right _ (List.mem_singleton_self _)
    · exact Or.inl (apply_drop_of_ne _ hkey)

theorem delivered_inStep {w : World User} (hw : Invariant w) {user : User}
    {identifier : String} {position : ℕ} {named : List (String × Option ℕ)}
    (hdeleted : Deleted user identifier w →
      Deleted user identifier (w.delivered user position named))
    (hi : InStep user identifier w) :
    InStep user identifier (w.delivered user position named) := by
  rcases deliver_channels hw user named (w.client user).service identifier with
    hnew | ⟨hold, hshown⟩
  · left
    rwa [delivered_client_self, delivered_shown_self]
  · apply inStep_of_same hdeleted _ _ hi
    · rwa [delivered_client_self]
    · rwa [delivered_shown_self]

theorem step_inStep {w v : World User} {e : Event User} (hw : Invariant w) {user : User}
    {identifier : String} (he : CapturedIsStored user identifier w e) (h : step w e = some v)
    (hi : InStep user identifier w) : InStep user identifier v := by
  have hdeleted : Deleted user identifier w → Deleted user identifier v := step_deleted hw h
  have hshown := step_shown hw h user
  rcases step_client h user with ⟨hclient, hdeliver, -⟩ | ⟨index, path, rfl, -, hclient⟩ |
    ⟨position, named, -, rfl⟩ | ⟨event, c, rfl, hevent, hc, hclient⟩
  · have hsame := congrFun (hshown hdeliver) identifier
    exact inStep_of_same hdeleted (by rw [hclient]) hsame hi
  · have hsame := congrFun (hshown (by simp)) identifier
    exact inStep_of_same hdeleted (by rw [hclient]) hsame hi
  · exact delivered_inStep hw hdeleted hi
  · have hsame := congrFun (hshown (by simp)) identifier
    rcases act_channels hevent he hc with hrow | ⟨hnone, hrequest⟩
    · exact inStep_of_same hdeleted (by rw [hclient, hrow]) hsame hi
    · right
      rw [Deleted, hclient]
      exact ⟨hnone, Or.inl hrequest⟩

theorem run_inStep {w : World User} {es : List (Event User)} {user : User} {identifier : String}
    (ha : Along step (CapturedIsStored user identifier) World.init es)
    (h : run step World.init es = some w) : Invariant w ∧ InStep user identifier w := by
  have hstep : ∀ (w : World User) (e : Event User) (v : World User),
      Invariant w ∧ InStep user identifier w → CapturedIsStored user identifier w e →
        step w e = some v → Invariant v ∧ InStep user identifier v := by
    rintro w e v ⟨hw, hi⟩ he hv
    exact ⟨step_invariant hw hv, step_inStep hw he hv hi⟩
  exact run_invariant_along hstep ⟨init_invariant, Or.inl rfl⟩ ha h

omit [DecidableEq User] in
/-- A client that has received the present version is shown the document as it is, or as a
write of its own will leave it. -/
theorem shown_cases {w : World User} (hw : Invariant w) {user : User}
    (hposition : w.position user = w.log.length) (identifier : String) :
    w.shown user identifier = current w.log identifier ∨
      ∃ data, Pending w user identifier data ∧ w.shown user identifier = data := by
  have hupTo := hw.upTo user identifier
  rw [World.shown]
  cases hsource : w.source user identifier with
  | own data => exact Or.inr ⟨data, hw.pending user identifier data hsource, rfl⟩
  | version n =>
    left
    rw [hsource, hposition] at hupTo
    obtain ⟨hn, hnew | htouched⟩ := hupTo
    · obtain rfl := Nat.le_antisymm hn hnew
      rw [Source.data, version_length]
    · rw [Source.data, ← version_of_not_touched hn htouched, version_length]

omit [DecidableEq User] in
theorem shown_present {w : World User} (hw : Invariant w) {user : User} {identifier : String}
    (hposition : w.position user = w.log.length)
    (hadding : ∀ d ∈ w.adding, d.user = user → d.documentID ≠ identifier)
    (hrequests : .channel identifier ∉ (w.client user).service.requests) :
    w.shown user identifier = current w.log identifier := by
  refine (shown_cases hw hposition identifier).resolve_right ?_
  rintro ⟨_ | data, hpending, -⟩
  · exact hrequests hpending
  · obtain ⟨d, hd, huser, hid, -⟩ := hpending
    exact hadding d hd huser hid

omit [DecidableEq User] in
/-- A row that is in step is that of the document once everything has arrived. -/
theorem row_of_inStep {w : World User} (hw : Invariant w) {user : User} {identifier : String}
    (hi : InStep user identifier w) (hposition : w.position user = w.log.length)
    (hadding : ∀ d ∈ w.adding, d.user = user → d.documentID ≠ identifier)
    (hrequests : .channel identifier ∉ (w.client user).service.requests) :
    (w.client user).service.store.channels identifier =
      storedRow (current w.log) identifier := by
  rcases hi with hrow | ⟨hnone, hpending | hgone⟩
  · rw [hrow]
    exact storedRow_congr (shown_present hw hposition hadding hrequests)
  · exact absurd hpending hrequests
  · rw [hnone, storedRow, hgone.2, Option.bind_none]

/-- A client that has received the present version, whose own writes to the channel's document
have arrived, has the channel's row as the document says, and none without a document. -/
theorem channels_converge {w : World User} {es : List (Event User)} {user : User}
    {identifier : String} (h : run step World.init es = some w)
    (ha : Along step (CapturedIsStored user identifier) World.init es)
    (hposition : w.position user = w.log.length)
    (hadding : ∀ d ∈ w.adding, d.user = user → d.documentID ≠ identifier)
    (hrequests : .channel identifier ∉ (w.client user).service.requests) :
    (w.client user).service.store.channels identifier =
      storedRow (current w.log) identifier := by
  obtain ⟨hw, hi⟩ := run_inStep ha h
  exact row_of_inStep hw hi hposition hadding hrequests

/-- The row action drops the row and asks for the deletion of the document. -/
theorem deleteRow_effect {w v : World User} {user : User} {identifier : String}
    (h : step w (.act user (.deleteRow identifier)) = some v) :
    (v.client user).service.store.channels identifier = none ∧
      .channel identifier ∈ (v.client user).service.requests := by
  obtain ⟨hevent, c, hc, rfl⟩ := act_cases h
  have hcaptured : CapturedIsStored user identifier w (.act user (.deleteRow identifier)) :=
    trivial
  rcases act_channels hevent hcaptured hc with hsame | hdeleted
  · obtain ⟨row, hrow, rfl⟩ := Option.map_eq_some_iff.mp hc
    simp [hrow] at hsame
  · simpa using hdeleted

/-- Some request of the user to delete the channel's document has arrived. -/
def RequestArrived (user : User) (identifier : String) (es : List (Event User)) : Prop :=
  ∃ earlier index later w, es = earlier ++ .requestArrives user index :: later ∧
    run step World.init earlier = some w ∧
    (w.client user).service.requests[index]? = some (.channel identifier)

theorem RequestArrived.append {user : User} {identifier : String} {es : List (Event User)}
    (h : RequestArrived user identifier es) (fs : List (Event User)) :
    RequestArrived user identifier (es ++ fs) := by
  obtain ⟨earlier, index, later, w, rfl, hrest⟩ := h
  exact ⟨earlier, index, later ++ fs, w, by simp, hrest⟩

/-- After a row action its request is under way, or one has arrived. -/
theorem underWay_or_arrived {w : World User} {es : List (Event User)} {user : User}
    {identifier : String} (h : run step World.init es = some w)
    (hmem : .act user (.deleteRow identifier) ∈ es) :
    .channel identifier ∈ (w.client user).service.requests ∨
      RequestArrived user identifier es := by
  have hstep (fs : List (Event User)) (t : World User) (e : Event User) (v : World User)
      (hrun : run step World.init fs = some t)
      (ht : .act user (.deleteRow identifier) ∈ fs →
        .channel identifier ∈ (t.client user).service.requests ∨
          RequestArrived user identifier fs)
      (hv : step t e = some v) (hmem : .act user (.deleteRow identifier) ∈ fs ++ [e]) :
      .channel identifier ∈ (v.client user).service.requests ∨
        RequestArrived user identifier (fs ++ [e]) := by
    rcases List.mem_append.mp hmem with hbefore | hlast
    · rcases ht hbefore with hpending | harrived
      · rcases step_underWay hv hpending with hstill | ⟨index, rfl, hpath⟩
        · exact Or.inl hstill
        · exact Or.inr ⟨fs, index, [], t, rfl, hrun, hpath⟩
      · exact Or.inr (harrived.append [e])
    · obtain rfl := List.mem_singleton.mp hlast
      exact Or.inl (deleteRow_effect hv).2
  exact @run_history _ _ step (fun es w => .act user (.deleteRow identifier) ∈ es →
    .channel identifier ∈ (w.client user).service.requests ∨ RequestArrived user identifier es)
    _ _ _ (fun hmem => absurd hmem List.not_mem_nil) hstep h hmem

theorem gone_of_arrived {w : World User} {es : List (Event User)} {user : User}
    {identifier : String} (h : run step World.init es = some w)
    (harrived : RequestArrived user identifier es) : Gone w.log identifier := by
  obtain ⟨earlier, index, later, u, rfl, hu, hpath⟩ := harrived
  have hinvariant : Invariant u :=
    run_invariant (fun _ _ _ hi hs => step_invariant hi hs) init_invariant hu
  rw [run_append_of_run hu] at h
  obtain ⟨t, ht, hrest⟩ := run_cons_eq_some.mp h
  have hstep : ∀ (w : World User) (e : Event User) (v : World User),
      Invariant w ∧ Gone w.log identifier → step w e = some v →
        Invariant v ∧ Gone v.log identifier :=
    fun w e v hi hs => ⟨step_invariant hi.1 hs, step_gone hi.1 hs hi.2⟩
  exact (run_invariant hstep
    ⟨step_invariant hinvariant ht, requestArrives_gone hinvariant ht hpath⟩ hrest).2

omit [DecidableEq User] in
theorem shown_of_gone {w : World User} (hw : Invariant w) {user : User} {identifier : String}
    (hgone : Gone w.log identifier) (hposition : w.position user = w.log.length) :
    w.shown user identifier = none := by
  rcases shown_cases hw hposition identifier with hcurrent | ⟨_ | data, hpending, hshown⟩
  · rw [hcurrent, hgone.2]
  · exact hshown
  · obtain ⟨d, hd, -, rfl, -⟩ := hpending
    exact absurd hgone.1 (hw.adding_fresh d hd)

/-- The request of a row action is under way until it arrives. From then on the document is
gone, and every client that has received the present version has dropped the channel. -/
theorem deleteRow_everywhere {w : World User} {es : List (Event User)} (user : User)
    (identifier : String) (h : run step World.init es = some w) :
    (.act user (.deleteRow identifier) ∈ es →
      .channel identifier ∈ (w.client user).service.requests ∨
        RequestArrived user identifier es) ∧
    (RequestArrived user identifier es →
      current w.log identifier = none ∧ ∀ other, w.position other = w.log.length →
        Along step (CapturedIsStored other identifier) World.init es →
          (w.client other).service.store.channels identifier = none) := by
  refine ⟨underWay_or_arrived h, fun harrived => ?_⟩
  have hgone := gone_of_arrived h harrived
  refine ⟨hgone.2, fun other hposition ha => ?_⟩
  obtain ⟨hw, hrow | ⟨hnone, -⟩⟩ := run_inStep ha h
  · rw [hrow, storedRow, shown_of_gone hw hgone hposition, Option.bind_none]
  · exact hnone

end Clients

/-- A channel that its creator is shown before it has arrived, and that is renamed while the
creator watches it. -/
def renameRun : List (Event ℕ) := [
  .createChannel 0 "General" "c1", .deliver 0 0 [("c1", none)], .act 0 (.openConversation "c1"),
  .act 0 (.messageSnapshot 0 (some [])), .addArrives 0, .rewrite "c1" (createChannel "Main"),
  .deliver 0 2 [("c1", some 2)]]

theorem channels_converge_renameRun : ∃ w, run step World.init renameRun = some w ∧
    (w.client 0).service.store.channels "c1" = storedRow (current w.log) "c1" ∧
      storedRow (current w.log) "c1" = some ⟨"Main", none, none⟩ := by
  obtain ⟨w, hrun⟩ : ∃ w, run step World.init renameRun = some w := ⟨_, rfl⟩
  have halong : Along step (CapturedIsStored 0 "c1") World.init renameRun := by
    refine ⟨trivial, fun t₁ h₁ => ⟨trivial, fun t₂ h₂ => ⟨trivial, fun t₃ h₃ => ⟨?_,
      fun t₄ _ => ⟨trivial, fun t₅ _ => ⟨trivial, fun t₆ _ => ⟨trivial, fun _ _ => trivial⟩⟩⟩⟩⟩⟩⟩
    obtain rfl := Option.some.inj h₁
    obtain rfl := Option.some.inj h₂
    obtain rfl := Option.some.inj h₃
    intro _ channel hchannel _
    obtain rfl := Option.some.inj hchannel
    decide
  obtain ⟨hposition, hadding, hrequests, hrow⟩ : w.position 0 = w.log.length ∧
      w.adding = [] ∧ .channel "c1" ∉ (w.client 0).service.requests ∧
        storedRow (current w.log) "c1" = some ⟨"Main", none, none⟩ := by
    obtain rfl := Option.some.inj hrun
    exact ⟨rfl, rfl, by decide, by decide⟩
  have hnone : ∀ d ∈ w.adding, d.user = 0 → d.documentID ≠ "c1" := by
    rw [hadding]
    exact nofun
  exact ⟨w, hrun, channels_converge hrun halong hposition hnone hrequests, hrow⟩

/-- A channel that one user deletes and the other is told about later. -/
def deleteRun : List (Event ℕ) := [
  .createChannel 1 "General" "c1", .deliver 1 0 [("c1", none)], .addArrives 0,
  .deliver 0 1 [("c1", some 1)], .act 1 (.deleteRow "c1"), .deliver 1 1 [("c1", none)],
  .requestArrives 1 0, .deliver 0 2 [("c1", some 2)]]

theorem deleteRow_everywhere_deleteRun : ∃ w, run step World.init deleteRun = some w ∧
    current w.log "c1" = none ∧ (w.client 0).service.store.channels "c1" = none := by
  obtain ⟨w, hrun⟩ : ∃ w, run step World.init deleteRun = some w := ⟨_, rfl⟩
  have halong : Along step (CapturedIsStored 0 "c1") World.init deleteRun := by
    refine along_of_forall_mem (fun e he s => ?_) _
    simp only [deleteRun, List.mem_cons, List.not_mem_nil, or_false] at he
    rcases he with rfl | rfl | rfl | rfl | rfl | rfl | rfl | rfl <;> trivial
  have harrived : RequestArrived 1 "c1" deleteRun :=
    ⟨deleteRun.take 6, 0, [.deliver 0 2 [("c1", some 2)]], _, rfl, rfl, rfl⟩
  have hposition : w.position 0 = w.log.length := by
    obtain rfl := Option.some.inj hrun
    rfl
  obtain ⟨hgone, hclients⟩ := (deleteRow_everywhere 1 "c1" hrun).2 harrived
  exact ⟨w, hrun, hgone, hclients 0 hposition halong⟩

end TinkoffChat.ChannelSync

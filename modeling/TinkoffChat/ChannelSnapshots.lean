import TinkoffChat.ChannelWorld

/-!
What a snapshot does to a client. The listener reads off it, for each document that it
names and that was shown before or is shown now, the row of the document as it is shown
now; so after it each row is that of the document, or as it was where the document is
shown as before. Nothing else that happens changes what a client is shown.
-/
namespace TinkoffChat.ChannelSnapshots

open ChangeLog TableVersions Documents LocalStore FireStoreService PartialRuns
open ChatClient (Client)
open ChannelWorld

variable {User : Type*}

section Snapshots

theorem documentChange_eq_some {before after : Table String Fields} {documentID : String}
    {document : DocumentChange} (hbefore : ∀ data, before documentID = some data →
      (data.string "name").isSome) (hafter : ∀ data, after documentID = some data →
      (data.string "name").isSome)
    (h : documentChange before after documentID = some document) :
    document.documentID = documentID ∧
      channelRead document = some (storedRow after documentID) := by
  unfold documentChange at h
  split at h
  · cases h
  all_goals
    rename_i hb ha
    obtain rfl := Option.some.inj h
    refine ⟨rfl, ?_⟩
    rw [ChannelMirror.channelRead_of_hasName, storedRow, ha]
    · rfl
    · first | exact hafter _ ha | exact hbefore _ hb

theorem documentChange_eq_none {before after : Table String Fields} {documentID : String}
    (h : documentChange before after documentID = none) :
    before documentID = none ∧ after documentID = none := by
  unfold documentChange at h
  split at h
  · rename_i hb ha
    exact ⟨hb, ha⟩
  all_goals cases h

/-- What a source has of a document was in the collection, or is being added by the client. -/
theorem exists_of_data {w : World User} (hw : Invariant w) {user : User} {c : String}
    {source : Source} {data : Fields}
    (hsource : ∀ data, source = .own data → Pending w user c data)
    (h : source.data w.log c = some data) :
    Known w user c ∧ (data.string "name").isSome := by
  cases source with
  | version n =>
    obtain ⟨change, hchange, rfl, hvalue⟩ := exists_change_of_version h
    exact ⟨Or.inl (List.mem_map_of_mem hchange), hw.log_named change hchange data hvalue⟩
  | own data' =>
    obtain rfl : data' = some data := h
    obtain ⟨d, hd, huser, rfl, rfl⟩ := hsource _ rfl
    exact ⟨Or.inr ⟨d, hd, huser, rfl⟩, hw.adding_named d hd⟩

theorem shown_known {w : World User} (hw : Invariant w) {user : User} {c : String}
    (h : w.shown user c ≠ none) : Known w user c := by
  obtain ⟨data, hdata⟩ := Option.ne_none_iff_exists'.mp h
  exact (exists_of_data hw (hw.pending user c) hdata).1

theorem shown_named {w : World User} (hw : Invariant w) (user : User) (c : String) :
    ∀ data, w.shown user c = some data → (data.string "name").isSome :=
  fun _ hdata => (exists_of_data hw (hw.pending user c) hdata).2

variable [DecidableEq User] {w : World User} {user : User} {named : List (String × Option ℕ)}

theorem pending_of_ownWrite {c : String} {data : Option Fields}
    (h : w.ownWrite user c = some data) : Pending w user c data := by
  unfold World.ownWrite at h
  split at h
  · rename_i hrequest
    obtain rfl := Option.some.inj h
    exact hrequest
  · obtain ⟨d, hd, rfl⟩ := Option.map_eq_some_iff.mp h
    have hfound := List.find?_some hd
    rw [decide_eq_true_eq] at hfound
    obtain ⟨huser, hid⟩ := hfound
    exact ⟨d, List.mem_of_find?_eq_some hd, huser, hid, rfl⟩

theorem sources_pending (hw : Invariant w) (user : User) (named : List (String × Option ℕ))
    (c : String) : ∀ data, w.sources user named c = .own data → Pending w user c data := by
  intro data h
  unfold World.sources at h
  split at h
  · exact hw.pending user c data h
  · cases h
  · cases hown : w.ownWrite user c with
    | none =>
      rw [hown] at h
      exact hw.pending user c data h
    | some data' =>
      rw [hown] at h
      obtain rfl := Source.own.inj h
      exact pending_of_ownWrite hown

theorem showing_known (hw : Invariant w) {c : String} (h : w.showing user named c ≠ none) :
    Known w user c := by
  obtain ⟨data, hdata⟩ := Option.ne_none_iff_exists'.mp h
  exact (exists_of_data hw (sources_pending hw user named c) hdata).1

theorem showing_named (hw : Invariant w) (c : String) :
    ∀ data, w.showing user named c = some data → (data.string "name").isSome :=
  fun _ hdata => (exists_of_data hw (sources_pending hw user named c) hdata).2

/-- A document that the snapshot does not name is shown as before. -/
theorem sources_of_not_named {c : String} (h : c ∉ named.map Prod.fst) :
    w.sources user named c = w.source user c := by
  have hnone : named.lookup c = none := by
    rw [List.lookup_eq_none_iff]
    intro d hd
    rw [bne_iff_ne]
    rintro rfl
    exact h (List.mem_map_of_mem hd)
  rw [World.sources, hnone]

theorem showing_of_not_named {c : String} (h : c ∉ named.map Prod.fst) :
    w.showing user named c = w.shown user c := by
  rw [World.showing, sources_of_not_named h, World.shown]

/-- Every change that the listener reads off a snapshot is that of a document. -/
theorem exists_documentChange (hw : Invariant w) {c : Change String ChannelDb}
    (hc : c ∈ channelLog (twoPhases (snapshot w user named))) :
    ∃ document, documentChange (w.shown user) (w.showing user named) c.key = some document ∧
      c.value = storedRow (w.showing user named) c.key := by
  obtain ⟨document, hmem, hread⟩ := List.mem_filterMap.mp hc
  obtain ⟨documentID, -, hchange⟩ :=
    List.mem_filterMap.mp ((twoPhases_perm _).mem_iff.mp hmem)
  obtain ⟨hid, hrow⟩ :=
    documentChange_eq_some (shown_named hw user _) (showing_named hw _) hchange
  rw [hrow, Option.map_some] at hread
  obtain rfl := Option.some.inj hread
  rw [hid]
  exact ⟨document, hchange, rfl⟩

/-- A named document that the listener reads no change of was not there before or after. -/
theorem shown_of_not_read (hw : Invariant w) {documentID : String}
    (hmem : documentID ∈ named.map Prod.fst)
    (hread : documentID ∉ (channelLog (twoPhases (snapshot w user named))).map Change.key) :
    w.shown user documentID = none ∧ w.showing user named documentID = none := by
  cases hchange : documentChange (w.shown user) (w.showing user named) documentID with
  | none => exact documentChange_eq_none hchange
  | some document =>
    obtain ⟨hid, hrow⟩ :=
      documentChange_eq_some (shown_named hw user _) (showing_named hw _) hchange
    have hdocument : document ∈ twoPhases (snapshot w user named) :=
      (twoPhases_perm _).mem_iff.mpr (List.mem_filterMap.mpr ⟨documentID, hmem, hchange⟩)
    have hchange : ⟨document.documentID, storedRow (w.showing user named) documentID⟩ ∈
        channelLog (twoPhases (snapshot w user named)) := by
      refine List.mem_filterMap.mpr ⟨document, hdocument, ?_⟩
      rw [hrow, Option.map_some]
    exact absurd (List.mem_map.mpr ⟨_, hchange, hid⟩) hread

/-- After a snapshot each row is that of the document as it is shown now, or the old one where
the document is shown as before. -/
theorem deliver_channels (hw : Invariant w) (user : User) (named : List (String × Option ℕ))
    (s : Service) (c : String) :
    (updateChannels (some (snapshot w user named)) s).store.channels c =
        storedRow (w.showing user named) c ∨
      (updateChannels (some (snapshot w user named)) s).store.channels c = s.store.channels c ∧
        w.showing user named c = w.shown user c := by
  rw [updateChannels_channels]
  have hvalue : ∀ c ∈ channelLog (twoPhases (snapshot w user named)),
      c.value = storedRow (w.showing user named) c.key := by
    intro c hc
    obtain ⟨document, -, hvalue⟩ := exists_documentChange hw hc
    exact hvalue
  rcases replay_towards (t := s.store.channels) hvalue c with ⟨hnew, -⟩ | ⟨hold, hread⟩
  · exact Or.inl hnew
  · refine Or.inr ⟨hold, ?_⟩
    by_cases hnamed : c ∈ named.map Prod.fst
    · obtain ⟨hbefore, hafter⟩ := shown_of_not_read hw hnamed hread
      rw [hbefore, hafter]
    · exact showing_of_not_named hnamed

omit [DecidableEq User] in
theorem document_of_storedRow {documents : Table String Fields} {c : String}
    (h : storedRow documents c ≠ none) : documents c ≠ none := by
  intro hnone
  rw [storedRow, hnone] at h
  exact h rfl

theorem deliver_fromLog (hw : Invariant w) (user : User) (named : List (String × Option ℕ)) :
    FromLog (Known w user) { w.client user with
      service := updateChannels (some (snapshot w user named)) (w.client user).service } := by
  have hclient := hw.clients user
  refine { hclient with rows := ?_, requests := ?_ }
  · intro c hc
    rcases deliver_channels hw user named (w.client user).service c with hnew | ⟨hold, -⟩
    · exact showing_known hw (document_of_storedRow (ne_of_eq_of_ne hnew.symm hc))
    · exact hclient.rows c (ne_of_eq_of_ne hold.symm hc)
  · intro c hc
    obtain ⟨extra, hextra, hremovals⟩ := ChannelEchoes.updateChannels_requests
      (snapshot w user named) (w.client user).service
    simp only [hextra] at hc
    rcases List.mem_append.mp hc with hold | hnew
    · exact hclient.requests c hold
    · obtain ⟨document, hmem, hremoved, rfl⟩ := hremovals c hnew
      obtain ⟨documentID, -, hchange⟩ := List.mem_filterMap.mp hmem
      obtain ⟨hid, -⟩ :=
        documentChange_eq_some (shown_named hw user _) (showing_named hw _) hchange
      rw [hid]
      by_contra hunknown
      have hbefore : w.shown user documentID = none := by
        by_contra hshown
        exact hunknown (shown_known hw hshown)
      have hafter : w.showing user named documentID = none := by
        by_contra hshown
        exact hunknown (showing_known hw hshown)
      rw [documentChange, hbefore, hafter] at hchange
      cases hchange

end Snapshots

/-- What a client does by itself brings in no identifier from elsewhere. -/
theorem act_fromLog {known : String → Prop} {c d : Client} {e : ChatClient.Event}
    (hc : FromLog known c) (he : ∀ snapshot, e ≠ .channelSnapshot snapshot)
    (h : ChatClient.step c e = some d) : FromLog known d := by
  cases e with
  | channelSnapshot snapshot => exact absurd rfl (he snapshot)
  | openConversation identifier =>
    obtain ⟨row, hrow, rfl⟩ := Option.map_eq_some_iff.mp h
    refine { hc with listeners := ?_ }
    intro channel hchannel
    rcases List.mem_append.mp hchannel with hold | hnew
    · exact hc.listeners channel hold
    · rw [List.mem_singleton.mp hnew]
      exact hc.rows identifier (hrow ▸ Option.some_ne_none row)
  | messageSnapshot listener snapshot =>
    obtain ⟨channel, hchannel, rfl⟩ := Option.map_eq_some_iff.mp h
    cases snapshot with
    | none => exact hc
    | some documentChanges =>
      refine { hc with rows := ?_ }
      intro i hi
      simp only [updateMessages_channels] at hi
      by_cases hkey : channel.identifier = i
      · rw [← hkey]
        exact hc.listeners channel (List.mem_of_getElem? hchannel)
      · rw [apply_put_of_ne _ _ hkey] at hi
        exact hc.rows i hi
  | deleteRow identifier =>
    obtain ⟨row, hrow, rfl⟩ := Option.map_eq_some_iff.mp h
    refine { hc with rows := ?_, requests := ?_ }
    · intro i hi
      simp only [deleteChannel_channels, deleteChannelMessages_channels] at hi
      by_cases hkey : identifier = i
      · subst hkey
        rw [apply_drop_self] at hi
        exact absurd rfl hi
      · rw [apply_drop_of_ne _ hkey] at hi
        exact hc.rows i hi
    · intro i hi
      obtain ⟨extra, hextra, hown⟩ := ChannelEchoes.deletions_requests identifier c.service
      simp only [hextra] at hi
      rcases List.mem_append.mp hi with hold | hnew
      · exact hc.requests i hold
      · rw [hown i hnew]
        exact hc.rows identifier (hrow ▸ Option.some_ne_none row)

theorem act_requests {c d : Client} {e : ChatClient.Event} (h : ChatClient.step c e = some d) :
    c.service.requests ⊆ d.service.requests := by
  intro path hpath
  cases e with
  | channelSnapshot snapshot =>
    obtain rfl := Option.some.inj h
    cases snapshot with
    | none => exact hpath
    | some documentChanges =>
      obtain ⟨extra, hextra, -⟩ := ChannelEchoes.updateChannels_requests documentChanges c.service
      simp only [hextra]
      exact List.mem_append_left _ hpath
  | openConversation identifier =>
    obtain ⟨row, -, rfl⟩ := Option.map_eq_some_iff.mp h
    exact hpath
  | messageSnapshot listener snapshot =>
    obtain ⟨channel, -, rfl⟩ := Option.map_eq_some_iff.mp h
    cases snapshot <;> exact hpath
  | deleteRow identifier =>
    obtain ⟨row, -, rfl⟩ := Option.map_eq_some_iff.mp h
    obtain ⟨extra, hextra, -⟩ := ChannelEchoes.deletions_requests identifier c.service
    simp only [hextra]
    exact List.mem_append_left _ hpath

section Clients

variable [DecidableEq User]

/-- A client that asks for no less keeps what holds. -/
theorem client_invariant {w : World User} (hw : Invariant w) (user : User) {c : Client}
    (hc : FromLog (Known w user) c)
    (hrequests : (w.client user).service.requests ⊆ c.service.requests) :
    Invariant { w with client := Function.update w.client user c } := by
  refine { hw with clients := fun v => ?_, pending := fun v i data hown => ?_ }
  · change FromLog (Known w v) (Function.update w.client user c v)
    by_cases hv : v = user
    · subst hv
      rwa [Function.update_self]
    · rw [Function.update_of_ne hv]
      exact hw.clients v
  · have hpending := hw.pending v i data hown
    cases data with
    | some data => exact hpending
    | none =>
      change DocumentPath.channel i ∈ (Function.update w.client user c v).service.requests
      by_cases hv : v = user
      · subst hv
        rw [Function.update_self]
        exact hrequests hpending
      · rw [Function.update_of_ne hv]
        exact hpending

theorem act_cases {w v : World User} {user : User} {event : ChatClient.Event}
    (h : step w (.act user event) = some v) :
    (∀ snapshot, event ≠ .channelSnapshot snapshot) ∧
      ∃ c, ChatClient.step (w.client user) event = some c ∧
        v = { w with client := Function.update w.client user c } := by
  cases event with
  | channelSnapshot snapshot => cases h
  | _ =>
    obtain ⟨c, hc, rfl⟩ := Option.map_eq_some_iff.mp h
    exact ⟨nofun, c, hc, rfl⟩

theorem deliver_eq_some {w v : World User} {user : User} {position : ℕ}
    {named : List (String × Option ℕ)} (h : step w (.deliver user position named) = some v) :
    (w.position user ≤ position ∧ position ≤ w.log.length ∧ (∀ d ∈ named, d.1 ∈ w.used) ∧
      ∀ documentID ∈ w.used, UpTo w.log position documentID (w.sources user named documentID)) ∧
      v = w.delivered user position named := by
  obtain ⟨⟨hle, hbound, -, hused, hupTo⟩, heq⟩ := Option.ite_none_right_eq_some.mp h
  exact ⟨⟨hle, hbound, hused, hupTo⟩, (Option.some.inj heq).symm⟩

theorem delivered_client_self (w : World User) (user : User) (position : ℕ)
    (named : List (String × Option ℕ)) :
    (w.delivered user position named).client user = { w.client user with
      service := updateChannels (some (snapshot w user named)) (w.client user).service } :=
  Function.update_self ..

theorem delivered_client_of_ne (w : World User) {user other : User} (h : other ≠ user)
    (position : ℕ) (named : List (String × Option ℕ)) :
    (w.delivered user position named).client other = w.client other := Function.update_of_ne h ..

theorem delivered_shown_self (w : World User) (user : User) (position : ℕ)
    (named : List (String × Option ℕ)) :
    (w.delivered user position named).shown user = w.showing user named := by
  funext c
  change ((Function.update w.source user (w.sources user named)) user c).data w.log c = _
  rw [Function.update_self]
  rfl

theorem delivered_shown_of_ne (w : World User) {user other : User} (h : other ≠ user)
    (position : ℕ) (named : List (String × Option ℕ)) :
    (w.delivered user position named).shown other = w.shown other := by
  funext c
  change ((Function.update w.source user (w.sources user named)) other c).data w.log c = _
  rw [Function.update_of_ne h]
  rfl

theorem delivered_requests (w : World User) (user : User) (position : ℕ)
    (named : List (String × Option ℕ)) (other : User) :
    (w.client other).service.requests ⊆
      ((w.delivered user position named).client other).service.requests := by
  by_cases hv : other = user
  · subst hv
    obtain ⟨extra, hextra, -⟩ := ChannelEchoes.updateChannels_requests
      (snapshot w other named) (w.client other).service
    rw [delivered_client_self, hextra]
    exact List.subset_append_left ..
  · rw [delivered_client_of_ne w hv]
    exact List.Subset.refl _

/-- What a step does to one of the clients: nothing, or a request of its leaves, or it is
handed a snapshot, or it does something by itself. -/
theorem step_client {w v : World User} {e : Event User} (h : step w e = some v) (user : User) :
    (v.client user = w.client user ∧ (∀ position named, e ≠ .deliver user position named) ∧
        ∀ event, e ≠ .act user event) ∨
      (∃ index path, e = .requestArrives user index ∧
        (w.client user).service.requests[index]? = some path ∧
        v.client user = { w.client user with
          service := { (w.client user).service with
            requests := (w.client user).service.requests.eraseIdx index } }) ∨
      (∃ position named, e = .deliver user position named ∧
        v = w.delivered user position named) ∨
      ∃ event c, e = .act user event ∧ (∀ snapshot, event ≠ .channelSnapshot snapshot) ∧
        ChatClient.step (w.client user) event = some c ∧ v.client user = c := by
  cases e with
  | createChannel other name documentID =>
    obtain ⟨-, heq⟩ := Option.ite_none_right_eq_some.mp h
    obtain rfl := Option.some.inj heq
    exact Or.inl ⟨rfl, by simp, by simp⟩
  | addArrives index =>
    obtain ⟨d, -, rfl⟩ := Option.map_eq_some_iff.mp h
    exact Or.inl ⟨rfl, by simp, by simp⟩
  | rewrite documentID data =>
    obtain ⟨-, heq⟩ := Option.ite_none_right_eq_some.mp h
    obtain rfl := Option.some.inj heq
    exact Or.inl ⟨rfl, by simp, by simp⟩
  | requestArrives other index =>
    obtain ⟨path, hpath, -, rfl⟩ := requestArrives_eq_some.mp h
    by_cases hv : user = other
    · subst hv
      exact Or.inr (Or.inl ⟨index, path, rfl, hpath, by rw [sent_client_self, perform_client]⟩)
    · exact Or.inl ⟨by rw [sent_client_of_ne _ hv, perform_client], by simp, by simp⟩
  | deliver other position named =>
    obtain ⟨-, rfl⟩ := deliver_eq_some h
    by_cases hv : user = other
    · subst hv
      exact Or.inr (Or.inr (Or.inl ⟨position, named, rfl, rfl⟩))
    · exact Or.inl ⟨delivered_client_of_ne w hv position named, by simp [Ne.symm hv], by simp⟩
  | act other event =>
    obtain ⟨hevent, c, hc, rfl⟩ := act_cases h
    by_cases hv : user = other
    · subst hv
      exact Or.inr (Or.inr (Or.inr ⟨event, c, rfl, hevent, hc, Function.update_self ..⟩))
    · exact Or.inl ⟨Function.update_of_ne hv .., by simp, by simp [Ne.symm hv]⟩

theorem delivered_invariant {w : World User} (hw : Invariant w) {user : User} {position : ℕ}
    {named : List (String × Option ℕ)} (hbound : position ≤ w.log.length)
    (hused : ∀ d ∈ named, d.1 ∈ w.used)
    (hupTo : ∀ c ∈ w.used, UpTo w.log position c (w.sources user named c)) :
    Invariant (w.delivered user position named) := by
  have hclients := client_invariant hw user (deliver_fromLog hw user named)
    (delivered_client_self w user position named ▸ delivered_requests w user position named user)
  -- an identifier never used is in no change, so nothing of it can be missed
  have hall : ∀ c, UpTo w.log position c (w.sources user named c) := by
    intro c
    by_cases hc : c ∈ w.used
    · exact hupTo c hc
    · have hnamed : c ∉ named.map Prod.fst := by
        intro hmem
        obtain ⟨d, hd, rfl⟩ := List.mem_map.mp hmem
        exact hc (hused d hd)
      have hold := hw.upTo user c
      rw [sources_of_not_named hnamed]
      cases hsource : w.source user c with
      | own data => trivial
      | version n =>
        rw [hsource] at hold
        exact ⟨hold.1, Or.inr fun h => hc (hw.log_used c (mem_log_of_touched h))⟩
  refine { hclients with position_le := fun v => ?_, upTo := fun v c => ?_, pending := ?_ }
  · change Function.update w.position user position v ≤ w.log.length
    by_cases hv : v = user
    · rwa [hv, Function.update_self]
    · rw [Function.update_of_ne hv]
      exact hw.position_le v
  · change UpTo w.log (Function.update w.position user position v) c
      (Function.update w.source user (w.sources user named) v c)
    by_cases hv : v = user
    · rw [hv, Function.update_self, Function.update_self]
      exact hall c
    · rw [Function.update_of_ne hv, Function.update_of_ne hv]
      exact hw.upTo v c
  · intro v c data hown
    have hpending : Pending w v c data := by
      change Function.update w.source user (w.sources user named) v c = _ at hown
      by_cases hv : v = user
      · rw [hv, Function.update_self] at hown
        exact hv ▸ sources_pending hw user named c data hown
      · rw [Function.update_of_ne hv] at hown
        exact hw.pending v c data hown
    cases data with
    | some data => exact hpending
    | none => exact delivered_requests w user position named v hpending

theorem step_invariant {w v : World User} {e : Event User} (hw : Invariant w)
    (h : step w e = some v) : Invariant v := by
  cases e with
  | createChannel user name documentID =>
    obtain ⟨hfresh, heq⟩ := Option.ite_none_right_eq_some.mp h
    obtain rfl := Option.some.inj heq
    exact createChannel_invariant hw user name hfresh
  | addArrives index =>
    obtain ⟨d, hd, rfl⟩ := Option.map_eq_some_iff.mp h
    exact addArrives_invariant hw hd
  | rewrite documentID data =>
    obtain ⟨⟨hlive, hname⟩, heq⟩ := Option.ite_none_right_eq_some.mp h
    obtain rfl := Option.some.inj heq
    have hlogged : Logged w.log documentID :=
      mem_log_of_current (Option.isSome_iff_ne_none.mp hlive)
    apply append_invariant hw (.put documentID data) (hw.log_used _ hlogged)
    · intro data' hdata
      obtain rfl := Option.some.inj hdata
      exact hname
    · rintro d hd rfl
      exact hw.adding_fresh d hd hlogged
  | requestArrives user index =>
    obtain ⟨path, hpath, -, rfl⟩ := requestArrives_eq_some.mp h
    exact requestArrives_invariant hw hpath
  | deliver user position named =>
    obtain ⟨⟨-, hbound, hused, hupTo⟩, rfl⟩ := deliver_eq_some h
    exact delivered_invariant hw hbound hused hupTo
  | act user event =>
    obtain ⟨hevent, c, hc, rfl⟩ := act_cases h
    exact client_invariant hw user (act_fromLog (hw.clients user) hevent hc) (act_requests hc)

/-- Only a snapshot changes what a client is shown. -/
theorem step_shown {w v : World User} {e : Event User} (hw : Invariant w)
    (h : step w e = some v) (user : User)
    (he : ∀ position named, e ≠ .deliver user position named) : v.shown user = w.shown user := by
  cases e with
  | createChannel other name documentID =>
    obtain ⟨-, heq⟩ := Option.ite_none_right_eq_some.mp h
    obtain rfl := Option.some.inj heq
    rfl
  | addArrives index =>
    obtain ⟨d, hd, rfl⟩ := Option.map_eq_some_iff.mp h
    exact addArrives_shown hw hd user
  | rewrite documentID data =>
    obtain ⟨-, heq⟩ := Option.ite_none_right_eq_some.mp h
    obtain rfl := Option.some.inj heq
    exact shown_append hw _ user
  | requestArrives other index =>
    obtain ⟨path, -, -, rfl⟩ := requestArrives_eq_some.mp h
    exact requestArrives_shown hw other index path user
  | deliver other position named =>
    obtain ⟨-, rfl⟩ := deliver_eq_some h
    apply delivered_shown_of_ne
    rintro rfl
    exact he position named rfl
  | act other event =>
    obtain ⟨-, c, -, rfl⟩ := act_cases h
    rfl

end Clients

end TinkoffChat.ChannelSnapshots

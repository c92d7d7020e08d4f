import TinkoffChat.FireStoreService
import TinkoffChat.PartialRuns
import Mathlib.Data.List.Perm.Basic

/-!
Channels created and deleted by several clients. A client that handles a remote
removal sends a delete request of its own for the same document, so requests go
round between the clients. Requests and added documents reach Firestore in any
order; the snapshots of a client reach it in order, and a removal is put in a
snapshot only after the document was deleted. Identifiers are never reused.
-/
namespace TinkoffChat.ChannelEchoes

open ChangeLog Documents LocalStore FireStoreService PartialRuns

variable {User : Type*}

/-- The channel documents at Firestore, what is on its way to it (the requests of each
service, and the documents being added) and the snapshots on their way to the clients.
The identifiers that were used, deleted, and named by a delete action are logged, and so
are the requests sent while handling a snapshot. -/
structure World (User : Type*) where
  documents : Table String Fields
  adding : List (String × Fields)
  service : User → Service
  snapshots : User → List (List DocumentChange)
  used : List String
  deleted : List String
  named : List String
  echoed : List DocumentPath

def World.init : World User where
  documents := fun _ => none
  adding := []
  service := fun _ => Service.empty
  snapshots := fun _ => []
  used := []
  deleted := []
  named := []
  echoed := []

inductive Event (User : Type*)
  | createChannel (name documentID : String)
  | addArrives (index : ℕ)
  | deleteRow (user : User) (identifier : String)
  | requestArrives (user : User) (index : ℕ)
  | publish (user : User) (documentChanges : List DocumentChange)
  | deliver (user : User)

/-- A delete request removes the document that it names, if there is one. -/
def World.perform (w : World User) : DocumentPath → World User
  | .channel identifier =>
    if (w.documents identifier).isSome then
      { w with
        documents := apply w.documents (.drop identifier)
        deleted := w.deleted ++ [identifier] }
    else w
  | .message _ _ => w

def step [DecidableEq User] (w : World User) : Event User → Option (World User)
  | .createChannel name documentID =>
    if documentID ∉ w.used then
      some { w with
        adding := w.adding ++ [(documentID, createChannel name)]
        used := w.used ++ [documentID] }
    else none
  | .addArrives index =>
    w.adding[index]?.map fun d =>
      { w with
        documents := apply w.documents (.put d.1 d.2)
        adding := w.adding.eraseIdx index }
  | .deleteRow user identifier =>
    ((w.service user).store.channels identifier).map fun _ =>
      { w with
        service := Function.update w.service user
          (deleteChannel identifier (deleteChannelMessages identifier (w.service user)))
        named := w.named ++ [identifier] }
  | .requestArrives user index =>
    (w.service user).requests[index]?.map fun path =>
      World.perform { w with
        service := Function.update w.service user
          { w.service user with requests := (w.service user).requests.eraseIdx index } } path
  | .publish user documentChanges =>
    if ∀ document ∈ documentChanges, document.type = .removed →
        document.documentID ∈ w.deleted then
      some { w with
        snapshots := Function.update w.snapshots user (w.snapshots user ++ [documentChanges]) }
    else none
  | .deliver user =>
    match w.snapshots user with
    | [] => none
    | documentChanges :: rest =>
      let handled := updateChannels (some documentChanges) (w.service user)
      some { w with
        service := Function.update w.service user handled
        snapshots := Function.update w.snapshots user rest
        echoed := w.echoed ++ handled.requests.drop (w.service user).requests.length }

/-- Only documents that a delete action named were deleted, and a document that a
client asked to delete while handling a snapshot is live no more. -/
def EchoSafe (w : World User) : Prop :=
  (∀ identifier ∈ w.deleted, identifier ∈ w.named) ∧
  (∀ identifier, .channel identifier ∈ w.echoed → w.documents identifier = none)

/-- Deleting a channel asks Firestore for no channel document but its own. -/
theorem deletions_requests (identifier : String) (s : Service) :
    ∃ extra, (deleteChannel identifier (deleteChannelMessages identifier s)).requests =
        s.requests ++ extra ∧
      ∀ other, DocumentPath.channel other ∈ extra → other = identifier := by
  refine ⟨_, by rw [deleteChannel_requests, deleteChannelMessages_requests, List.append_assoc], ?_⟩
  intro other hother
  rcases List.mem_append.mp hother with hmem | hmem
  · obtain ⟨m, -, hm⟩ := List.mem_map.mp hmem
    cases hm
  · obtain ⟨c, hc, hpath⟩ := List.mem_map.mp hmem
    obtain rfl := DocumentPath.channel.inj hpath
    exact Store.mem_fetchChannels hc

private theorem walked_requests (documentChanges : List DocumentChange) (s : Service)
    (channels : List ChannelModel) :
    ∃ extra, (documentChanges.foldl walkChange (s, channels)).1.requests = s.requests ++ extra ∧
      ∀ identifier, .channel identifier ∈ extra →
        ∃ document ∈ documentChanges, document.type = .removed ∧
          document.documentID = identifier := by
  induction documentChanges generalizing s channels with
  | nil => exact ⟨[], (List.append_nil _).symm, by simp⟩
  | cons document rest ih =>
    rw [List.foldl_cons]
    cases hmodel : ChannelModel.ofDocument document with
    | none =>
      obtain ⟨extra, hextra, hmem⟩ := ih s channels
      refine ⟨extra, by rw [← hextra]; simp [walkChange, hmodel], fun identifier h => ?_⟩
      obtain ⟨d, hd, hremoved⟩ := hmem identifier h
      exact ⟨d, List.mem_cons_of_mem _ hd, hremoved⟩
    | some model =>
      have hid := ChannelModel.identifier_of_ofDocument hmodel
      by_cases hr : document.type = .removed
      · have hwalk : walkChange (s, channels) document =
            (deleteChannel model.identifier (deleteChannelMessages model.identifier s),
              channels) := by
          simp [walkChange, hmodel, hr]
        obtain ⟨first, hfirst, hown⟩ := deletions_requests model.identifier s
        obtain ⟨extra, hextra, hmem⟩ := ih
          (deleteChannel model.identifier (deleteChannelMessages model.identifier s)) channels
        refine ⟨first ++ extra, by rw [hwalk, hextra, hfirst, List.append_assoc], ?_⟩
        intro identifier h
        rcases List.mem_append.mp h with hnew | hlater
        · exact ⟨document, List.mem_cons_self, hr, (hid.symm.trans (hown _ hnew).symm)⟩
        · obtain ⟨d, hd, hremoved⟩ := hmem identifier hlater
          exact ⟨d, List.mem_cons_of_mem _ hd, hremoved⟩
      · obtain ⟨extra, hextra, hmem⟩ := ih s (channels ++ [model])
        refine ⟨extra, by rw [← hextra]; simp [walkChange, hmodel, hr], fun identifier h => ?_⟩
        obtain ⟨d, hd, hremoved⟩ := hmem identifier h
        exact ⟨d, List.mem_cons_of_mem _ hd, hremoved⟩

/-- A channel snapshot asks Firestore only for channel documents that it removes. -/
theorem updateChannels_requests (documentChanges : List DocumentChange) (s : Service) :
    ∃ extra, (updateChannels (some documentChanges) s).requests = s.requests ++ extra ∧
      ∀ identifier, .channel identifier ∈ extra →
        ∃ document ∈ documentChanges, document.type = .removed ∧
          document.documentID = identifier :=
  walked_requests documentChanges s []

/-- What holds in every state: a document lives from its addition to its deletion and
never again, and whatever asks for a deletion goes back to a delete action. -/
structure Invariant (w : World User) : Prop where
  live_used : ∀ c, w.documents c ≠ none → c ∈ w.used
  adding_used : ∀ d ∈ w.adding, d.1 ∈ w.used
  adding_nodup : (w.adding.map Prod.fst).Nodup
  adding_fresh : ∀ d ∈ w.adding, w.documents d.1 = none ∧ d.1 ∉ w.deleted
  deleted_used : ∀ c ∈ w.deleted, c ∈ w.used
  deleted_gone : ∀ c ∈ w.deleted, w.documents c = none
  deleted_named : ∀ c ∈ w.deleted, c ∈ w.named
  removals_deleted : ∀ user, ∀ documentChanges ∈ w.snapshots user,
    ∀ document ∈ documentChanges, document.type = .removed → document.documentID ∈ w.deleted
  requests_named : ∀ user c, .channel c ∈ (w.service user).requests → c ∈ w.named
  echoed_deleted : ∀ c, .channel c ∈ w.echoed → c ∈ w.deleted

theorem init_invariant : Invariant (World.init : World User) := by
  constructor <;> simp [World.init, Service.empty]

theorem createChannel_invariant {w : World User} (hw : Invariant w) (name : String)
    {documentID : String} (hfresh : documentID ∉ w.used) :
    Invariant { w with
      adding := w.adding ++ [(documentID, createChannel name)]
      used := w.used ++ [documentID] } := by
  have hdead : w.documents documentID = none := by
    by_contra hlive
    exact hfresh (hw.live_used documentID hlive)
  refine { hw with
    live_used := fun c hc => List.mem_append_left _ (hw.live_used c hc)
    adding_used := ?_, adding_nodup := ?_, adding_fresh := ?_
    deleted_used := fun c hc => List.mem_append_left _ (hw.deleted_used c hc) }
  · intro d hd
    rcases List.mem_append.mp hd with hold | hnew
    · exact List.mem_append_left _ (hw.adding_used d hold)
    · obtain rfl := List.mem_singleton.mp hnew
      exact List.mem_append_right _ (List.mem_singleton_self _)
  · rw [List.map_append, List.nodup_append]
    refine ⟨hw.adding_nodup, List.nodup_singleton _, ?_⟩
    intro c hc c' hc' heq
    obtain ⟨d, hd, rfl⟩ := List.mem_map.mp hc
    obtain rfl := List.mem_singleton.mp hc'
    exact hfresh (heq ▸ hw.adding_used d hd)
  · intro d hd
    rcases List.mem_append.mp hd with hold | hnew
    · exact hw.adding_fresh d hold
    · obtain rfl := List.mem_singleton.mp hnew
      exact ⟨hdead, fun hdeleted => hfresh (hw.deleted_used documentID hdeleted)⟩

theorem addArrives_invariant {w : World User} (hw : Invariant w) {index : ℕ}
    {d : String × Fields} (hd : w.adding[index]? = some d) :
    Invariant { w with
      documents := apply w.documents (.put d.1 d.2)
      adding := w.adding.eraseIdx index } := by
  have hmem := List.mem_of_getElem? hd
  have hperm : (d :: w.adding.eraseIdx index).Perm w.adding := cons_eraseIdx_perm hd
  have hnodup : (d.1 :: (w.adding.eraseIdx index).map Prod.fst).Nodup :=
    ((hperm.map Prod.fst).nodup_iff).mpr hw.adding_nodup
  have hother : ∀ c, d.1 ≠ c → apply w.documents (.put d.1 d.2) c = w.documents c :=
    fun c hne => apply_put_of_ne w.documents d.2 hne
  refine { hw with
    live_used := ?_
    adding_used := fun d' hd' => hw.adding_used d' (List.mem_of_mem_eraseIdx hd')
    adding_nodup := (List.nodup_cons.mp hnodup).2, adding_fresh := ?_, deleted_gone := ?_ }
  · intro c hc
    by_cases hne : d.1 = c
    · rw [← hne]
      exact hw.adding_used d hmem
    · exact hw.live_used c (ne_of_eq_of_ne (hother c hne).symm hc)
  · intro d' hd'
    obtain ⟨hdead, hkept⟩ := hw.adding_fresh d' (List.mem_of_mem_eraseIdx hd')
    have hne : d.1 ≠ d'.1 := fun heq =>
      (List.nodup_cons.mp hnodup).1 (heq ▸ List.mem_map_of_mem hd')
    exact ⟨(hother d'.1 hne).trans hdead, hkept⟩
  · intro c hc
    have hne : d.1 ≠ c := by
      rintro rfl
      exact (hw.adding_fresh d hmem).2 hc
    exact (hother c hne).trans (hw.deleted_gone c hc)

/-- A delete request that goes back to a delete action may arrive at any time. -/
theorem perform_invariant {w : World User} (hw : Invariant w) {path : DocumentPath}
    (hnamed : ∀ c, path = .channel c → c ∈ w.named) : Invariant (w.perform path) := by
  cases path with
  | message channel identifier => exact hw
  | channel identifier =>
    rw [World.perform]
    split
    case isFalse => exact hw
    case isTrue hlive =>
      have hdead : ∀ c, apply w.documents (.drop identifier) c ≠ none →
          identifier ≠ c ∧ w.documents c ≠ none := by
        intro c hc
        have hne : identifier ≠ c := by
          rintro rfl
          exact hc (apply_drop_self _ _)
        rw [apply_drop_of_ne _ hne] at hc
        exact ⟨hne, hc⟩
      have hused : identifier ∈ w.used :=
        hw.live_used identifier (Option.isSome_iff_ne_none.mp hlive)
      refine { hw with
        live_used := fun c hc => hw.live_used c (hdead c hc).2
        adding_fresh := ?_, deleted_used := ?_, deleted_gone := ?_, deleted_named := ?_
        removals_deleted := fun user snapshot hsnapshot document hdocument hr =>
          List.mem_append_left _ (hw.removals_deleted user snapshot hsnapshot document hdocument hr)
        echoed_deleted := fun c hc => List.mem_append_left _ (hw.echoed_deleted c hc) }
      · intro d hd
        obtain ⟨hnone, hkept⟩ := hw.adding_fresh d hd
        have hne : identifier ≠ d.1 := by
          rintro rfl
          rw [hnone] at hlive
          cases hlive
        refine ⟨(apply_drop_of_ne _ hne).trans hnone, fun hmem => ?_⟩
        rcases List.mem_append.mp hmem with hold | hnew
        · exact hkept hold
        · exact hne (List.mem_singleton.mp hnew).symm
      · intro c hc
        rcases List.mem_append.mp hc with hold | hnew
        · exact hw.deleted_used c hold
        · rw [List.mem_singleton.mp hnew]
          exact hused
      · intro c hc
        by_contra hlive'
        obtain ⟨hne, hlive'⟩ := hdead c hlive'
        rcases List.mem_append.mp hc with hold | hnew
        · exact hlive' (hw.deleted_gone c hold)
        · exact hne (List.mem_singleton.mp hnew).symm
      · intro c hc
        rcases List.mem_append.mp hc with hold | hnew
        · exact hw.deleted_named c hold
        · rw [List.mem_singleton.mp hnew]
          exact hnamed identifier rfl

variable [DecidableEq User]

theorem deleteRow_invariant {w : World User} (hw : Invariant w) (user : User)
    (identifier : String) :
    Invariant { w with
      service := Function.update w.service user
        (deleteChannel identifier (deleteChannelMessages identifier (w.service user)))
      named := w.named ++ [identifier] } := by
  refine { hw with
    deleted_named := fun c hc => List.mem_append_left _ (hw.deleted_named c hc)
    requests_named := ?_ }
  intro v c hc
  by_cases hv : v = user
  · subst hv
    obtain ⟨extra, hextra, hown⟩ := deletions_requests identifier (w.service v)
    simp only [Function.update_self, hextra] at hc
    rcases List.mem_append.mp hc with hold | hnew
    · exact List.mem_append_left _ (hw.requests_named v c hold)
    · rw [hown c hnew]
      exact List.mem_append_right _ (List.mem_singleton_self _)
  · simp only [Function.update_of_ne hv] at hc
    exact List.mem_append_left _ (hw.requests_named v c hc)

theorem requestArrives_invariant {w : World User} (hw : Invariant w) {user : User} {index : ℕ}
    {path : DocumentPath} (hpath : (w.service user).requests[index]? = some path) :
    Invariant (World.perform { w with
      service := Function.update w.service user
        { w.service user with requests := (w.service user).requests.eraseIdx index } } path) := by
  apply perform_invariant
  · refine { hw with requests_named := ?_ }
    intro v c hc
    by_cases hv : v = user
    · subst hv
      simp only [Function.update_self] at hc
      exact hw.requests_named v c (List.mem_of_mem_eraseIdx hc)
    · simp only [Function.update_of_ne hv] at hc
      exact hw.requests_named v c hc
  · rintro c rfl
    exact hw.requests_named user c (List.mem_of_getElem? hpath)

theorem publish_invariant {w : World User} (hw : Invariant w) (user : User)
    {documentChanges : List DocumentChange}
    (hdeleted : ∀ document ∈ documentChanges, document.type = .removed →
      document.documentID ∈ w.deleted) :
    Invariant { w with
      snapshots := Function.update w.snapshots user (w.snapshots user ++ [documentChanges]) } := by
  refine { hw with removals_deleted := ?_ }
  intro v snapshot hsnapshot
  by_cases hv : v = user
  · subst hv
    simp only [Function.update_self] at hsnapshot
    rcases List.mem_append.mp hsnapshot with hold | hnew
    · exact hw.removals_deleted v snapshot hold
    · rw [List.mem_singleton.mp hnew]
      exact hdeleted
  · simp only [Function.update_of_ne hv] at hsnapshot
    exact hw.removals_deleted v snapshot hsnapshot

/-- What a client asks for while handling a snapshot was deleted before. -/
theorem deliver_invariant {w : World User} (hw : Invariant w) {user : User}
    {documentChanges : List DocumentChange} {rest : List (List DocumentChange)}
    (hsnapshots : w.snapshots user = documentChanges :: rest) :
    let handled := updateChannels (some documentChanges) (w.service user)
    Invariant { w with
      service := Function.update w.service user handled
      snapshots := Function.update w.snapshots user rest
      echoed := w.echoed ++ handled.requests.drop (w.service user).requests.length } := by
  obtain ⟨extra, hextra, hremovals⟩ := updateChannels_requests documentChanges (w.service user)
  have hdeleted : ∀ c, .channel c ∈ extra → c ∈ w.deleted := by
    intro c hc
    obtain ⟨document, hmem, hr, rfl⟩ := hremovals c hc
    have hfirst := hsnapshots ▸ List.mem_cons_self
    exact hw.removals_deleted user documentChanges hfirst document hmem hr
  refine { hw with removals_deleted := ?_, requests_named := ?_, echoed_deleted := ?_ }
  · intro v snapshot hsnapshot
    by_cases hv : v = user
    · subst hv
      simp only [Function.update_self] at hsnapshot
      exact hw.removals_deleted v snapshot (hsnapshots ▸ List.mem_cons_of_mem _ hsnapshot)
    · simp only [Function.update_of_ne hv] at hsnapshot
      exact hw.removals_deleted v snapshot hsnapshot
  · intro v c hc
    by_cases hv : v = user
    · subst hv
      simp only [Function.update_self, hextra] at hc
      rcases List.mem_append.mp hc with hold | hnew
      · exact hw.requests_named v c hold
      · exact hw.deleted_named c (hdeleted c hnew)
    · simp only [Function.update_of_ne hv] at hc
      exact hw.requests_named v c hc
  · intro c hc
    rw [hextra, List.drop_left] at hc
    rcases List.mem_append.mp hc with hold | hnew
    · exact hw.echoed_deleted c hold
    · exact hdeleted c hnew

theorem step_invariant {w v : World User} {e : Event User} (hw : Invariant w)
    (h : step w e = some v) : Invariant v := by
  cases e with
  | createChannel name documentID =>
    obtain ⟨hfresh, heq⟩ := Option.ite_none_right_eq_some.mp h
    obtain rfl := Option.some.inj heq
    exact createChannel_invariant hw name hfresh
  | addArrives index =>
    obtain ⟨d, hd, rfl⟩ := Option.map_eq_some_iff.mp h
    exact addArrives_invariant hw hd
  | deleteRow user identifier =>
    obtain ⟨row, -, rfl⟩ := Option.map_eq_some_iff.mp h
    exact deleteRow_invariant hw user identifier
  | requestArrives user index =>
    obtain ⟨path, hpath, rfl⟩ := Option.map_eq_some_iff.mp h
    exact requestArrives_invariant hw hpath
  | publish user documentChanges =>
    obtain ⟨hdeleted, heq⟩ := Option.ite_none_right_eq_some.mp h
    obtain rfl := Option.some.inj heq
    exact publish_invariant hw user hdeleted
  | deliver user =>
    rw [step] at h
    split at h
    · cases h
    · rename_i documentChanges rest hsnapshots
      obtain rfl := Option.some.inj h
      exact deliver_invariant hw hsnapshots

/-- In every reachable state only documents that a user deleted are gone, and the
requests sent while handling removals find nothing to delete. -/
theorem echoSafe {w : World User} (h : Reachable step World.init w) : EchoSafe w := by
  have hw : Invariant w :=
    reachable_invariant init_invariant (fun _ _ _ hi ht => step_invariant hi ht) h
  exact ⟨hw.deleted_named, fun c hc => hw.deleted_gone c (hw.echoed_deleted c hc)⟩

/-- One user's channel, deleted by another; the first handles the removal and asks again. -/
def echoRun : List (Event ℕ) :=
  let added : DocumentChange := ⟨.added, "c1", createChannel "General"⟩
  let removed : DocumentChange := ⟨.removed, "c1", createChannel "General"⟩
  [.createChannel "General" "c1", .addArrives 0,
    .publish 0 [added], .deliver 0, .publish 1 [added], .deliver 1,
    .deleteRow 1 "c1", .requestArrives 1 0,
    .publish 0 [removed], .deliver 0, .requestArrives 0 0]

theorem echoSafe_echoRun : ∃ w, run step World.init echoRun = some w ∧
    .channel "c1" ∈ w.echoed ∧ EchoSafe w := by
  obtain ⟨w, hrun⟩ : ∃ w, run step World.init echoRun = some w := ⟨_, rfl⟩
  have hechoed : .channel "c1" ∈ w.echoed := by
    obtain rfl := Option.some.inj hrun
    decide
  exact ⟨w, hrun, hechoed, echoSafe ⟨echoRun, hrun⟩⟩

end TinkoffChat.ChannelEchoes

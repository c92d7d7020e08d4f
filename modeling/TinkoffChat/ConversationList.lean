import TinkoffChat.ChannelRelaunches
import TinkoffChat.SortedTables
import Mathlib.Data.Prod.Lex
import Mathlib.Data.String.Basic
import Mathlib.Order.WithBot

/-!
The conversation list. It shows the stored channels by their last activity, the latest
first and those without one at the end, and then by their names. A client may list a channel
of its own before Firestore has it; one that is up to date has no such write under way, and
its list is a sorted list of the documents, so all such clients show the same.
-/
namespace TinkoffChat.ConversationList

open ChangeLog TableVersions Documents LocalStore PartialRuns SortedTables
open ChannelWorld hiding Event step
open ChannelSnapshots (act_cases)
open ChannelSync (row_of_inStep deleteRow_effect)
open ChannelRelaunches (Event step CapturedIsStored LeftBehind inStep_of_not_leftBehind
  not_leftBehind)

variable {User : Type*} [DecidableEq User]

/-- The sort descriptors of the fetch request. -/
def sortKey (row : ChannelDb) : (WithBot Date)ᵒᵈ ×ₗ String :=
  toLex (OrderDual.toDual (row.lastActivity : WithBot Date), row.name)

/-- The rows of all documents of the collection. -/
def documentRows (log : List (Change String Fields)) : List (String × ChannelDb) :=
  listing sortKey (log.map Change.key) (storedRow (current log))

/-- The client has received the present version, its own writes have arrived, and it has kept
no channel from before a relaunch or from a screen. -/
structure UpToDate (user : User) (es : List (Event User)) (w : World User) : Prop where
  position : w.position user = w.log.length
  adding : ∀ d ∈ w.adding, d.user ≠ user
  requests : ∀ c, .channel c ∉ (w.client user).service.requests
  captured : ∀ c, Along step (CapturedIsStored user c) World.init es
  notLeft : ∀ c, ¬ LeftBehind user c es

theorem documentRows_listed (log : List (Change String Fields)) :
    Listed sortKey (storedRow (current log)) (documentRows log) := by
  apply listing_listed
  intro c hc
  exact mem_log_of_current (ChannelSnapshots.document_of_storedRow hc)

omit [DecidableEq User] in
/-- Every state has a list, of the rows of documents that are or were in the collection, or
are being added. -/
theorem client_listed {w : World User} (hw : Invariant w) (user : User) :
    Listed sortKey (w.client user).service.store.channels (listing sortKey
      (w.log.map Change.key ++ w.adding.map Added.documentID)
      (w.client user).service.store.channels) := by
  apply listing_listed
  intro c hc
  rcases (hw.clients user).rows c hc with hlogged | ⟨d, hd, -, rfl⟩
  · exact List.mem_append_left _ hlogged
  · exact List.mem_append_right _ (List.mem_map_of_mem hd)

/-- The rows of a client that is up to date are those of the documents. -/
theorem channels_upToDate {w : World User} {es : List (Event User)} {user : User}
    (h : run step World.init es = some w) (hu : UpToDate user es w) (c : String) :
    (w.client user).service.store.channels c = storedRow (current w.log) c := by
  obtain ⟨hw, hi⟩ := inStep_of_not_leftBehind h (hu.captured c) (hu.notLeft c)
  exact row_of_inStep hw hi hu.position (fun d hd huser => absurd huser (hu.adding d hd))
    (hu.requests c)

/-- Every list of an up-to-date client has the documents' rows, with the documents' keys at
each place, and is the one list of the documents if no two channels share a key. -/
theorem list_shown {w : World User} {es : List (Event User)} {user : User}
    {rows : List (String × ChannelDb)} (h : run step World.init es = some w)
    (hu : UpToDate user es w)
    (hrows : Listed sortKey (w.client user).service.store.channels rows) :
    rows.Perm (documentRows w.log) ∧
      rows.map (fun row => sortKey row.2) = (documentRows w.log).map (fun row => sortKey row.2) ∧
      (((documentRows w.log).map fun row => sortKey row.2).Nodup →
        rows = documentRows w.log) := by
  have hlisted := hrows.congr (channels_upToDate h hu)
  have hdocuments := documentRows_listed w.log
  exact ⟨hlisted.perm hdocuments, hlisted.keys_eq hdocuments,
    fun hnodup => (hdocuments.eq_of_nodup hlisted hnodup).symm⟩

/-- The row action on a row of the list takes that row away and asks for its deletion. -/
theorem deleteRow_list {w : World User} {user : User} {rows : List (String × ChannelDb)}
    {index : ℕ} {row : String × ChannelDb}
    (hrows : Listed sortKey (w.client user).service.store.channels rows)
    (hrow : rows[index]? = some row) :
    ∃ v, step w (.sync (.act user (.deleteRow row.1))) = some v ∧
      Listed sortKey (v.client user).service.store.channels (rows.eraseIdx index) ∧
      .channel row.1 ∈ (v.client user).service.requests := by
  have hstored := (hrows.mem_iff row.1 row.2).mp (List.mem_of_getElem? hrow)
  obtain ⟨v, hv⟩ : ∃ v, ChannelWorld.step w (.act user (.deleteRow row.1)) = some v := by
    simp [ChannelWorld.step, ChatClient.step, hstored]
  refine ⟨v, hv, ?_, (deleteRow_effect hv).2⟩
  obtain ⟨-, c, hc, rfl⟩ := act_cases hv
  obtain ⟨stored, -, rfl⟩ := Option.map_eq_some_iff.mp hc
  refine (hrows.eraseIdx hrow).congr fun k => ?_
  simp [FireStoreService.deleteChannel_channels, FireStoreService.deleteChannelMessages_channels]

/-- Two channels that two clients are told about, one of them in two snapshots, of which the
first shows the channel before it has arrived. -/
def twoClients : List (Event ℕ) := [
  .sync (.createChannel 0 "General" "c1"), .sync (.createChannel 1 "News" "c2"),
  .sync (.deliver 1 0 [("c2", none)]), .sync (.addArrives 1), .sync (.addArrives 0),
  .sync (.deliver 0 2 [("c2", some 2), ("c1", some 2)]), .sync (.deliver 1 2 [("c1", some 2)])]

theorem list_shown_twoClients : ∃ w, run step World.init twoClients = some w ∧
    (listing sortKey ["c2", "c1"] (w.client 1).service.store.channels).Perm
      (documentRows w.log) := by
  obtain ⟨w, hrun⟩ : ∃ w, run step World.init twoClients = some w := ⟨_, rfl⟩
  have hadding : w.adding = [] := by
    obtain rfl := Option.some.inj hrun
    rfl
  have hupToDate : UpToDate 1 twoClients w := by
    refine ⟨?_, ?_, ?_, fun c => ?_, fun c => ?_⟩
    · obtain rfl := Option.some.inj hrun
      rfl
    · rw [hadding]
      exact nofun
    · obtain rfl := Option.some.inj hrun
      exact fun c => List.not_mem_nil
    · refine along_of_forall_mem (fun e he s => ?_) _
      simp only [twoClients, List.mem_cons, List.not_mem_nil, or_false] at he
      rcases he with rfl | rfl | rfl | rfl | rfl | rfl | rfl <;> trivial
    · apply not_leftBehind
      simp [twoClients]
  have hlog : w.log.map Change.key ++ w.adding.map Added.documentID = ["c2", "c1"] := by
    obtain rfl := Option.some.inj hrun
    rfl
  have hinvariant : Invariant w :=
    run_invariant (fun _ _ _ hw hv => ChannelRelaunches.step_invariant hw hv)
      ChannelWorld.init_invariant hrun
  have hlisted := client_listed hinvariant 1
  rw [hlog] at hlisted
  exact ⟨w, hrun, (list_shown hrun hupToDate hlisted).1⟩

end TinkoffChat.ConversationList

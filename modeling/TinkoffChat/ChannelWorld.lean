import TinkoffChat.ChannelEchoes
import TinkoffChat.ChannelMirror
import TinkoffChat.ChatClient
import TinkoffChat.TableVersions

/-!
Several clients and the channel documents they share. Channels are created and
deleted by the clients, and documents may be rewritten elsewhere as long as they
keep a name. A client's own writes to one document reach Firestore in their order, all
other writes in any. A snapshot tells a client the difference between what it was shown
last and what it is shown now: a later version of the collection, in which the client's
own writes may show before they have arrived, and any document in a version later still.
-/
namespace TinkoffChat.ChannelWorld

open ChangeLog TableVersions Documents LocalStore FireStoreService ChatClient PartialRuns

variable {User : Type*}

/-- A document on its way to the collection. -/
structure Added (User : Type*) where
  user : User
  documentID : String
  data : Fields

/-- What a client is shown of a document: what some version of the collection has, or what
a write of its own makes of it that has not arrived. -/
inductive Source
  | version (n : ℕ)
  | own (data : Option Fields)

def Source.data (log : List (Change String Fields)) (documentID : String) :
    Source → Option Fields
  | .version n => TableVersions.version log n documentID
  | .own data => data

/-- The log of the changes made to the channel documents, the documents being added, the
identifiers used so far, the clients, the version that each has received last and what it
was shown of each document. -/
structure World (User : Type*) where
  log : List (Change String Fields)
  adding : List (Added User)
  used : List String
  client : User → Client
  position : User → ℕ
  source : User → String → Source

def World.init : World User where
  log := []
  adding := []
  used := []
  client := fun _ => Client.empty
  position := fun _ => 0
  source := fun _ _ => .version 0

/-- What happens on one client besides the channel snapshots is an event of its own. A
snapshot names each document with the version that it has of it, or none for what the
client itself has written. -/
inductive Event (User : Type*)
  | createChannel (user : User) (name documentID : String)
  | addArrives (index : ℕ)
  | rewrite (documentID : String) (data : Fields)
  | requestArrives (user : User) (index : ℕ)
  | deliver (user : User) (position : ℕ) (named : List (String × Option ℕ))
  | act (user : User) (event : ChatClient.Event)

/-- The change of one document between two views of the collection. A removal comes
with the fields that the document had. -/
def documentChange (before after : Table String Fields) (documentID : String) :
    Option DocumentChange :=
  match before documentID, after documentID with
  | none, none => none
  | none, some data => some ⟨.added, documentID, data⟩
  | some _, some data => some ⟨.modified, documentID, data⟩
  | some data, none => some ⟨.removed, documentID, data⟩

/-- The collection as the client was shown it last. -/
def World.shown (w : World User) (user : User) : Table String Fields := fun documentID =>
  (w.source user documentID).data w.log documentID

/-- What the client's writes under way make of the document; its deletion comes last. -/
def World.ownWrite [DecidableEq User] (w : World User) (user : User) (documentID : String) :
    Option (Option Fields) :=
  if .channel documentID ∈ (w.client user).service.requests then some none
  else (w.adding.find? fun d => d.user = user ∧ d.documentID = documentID).map fun d =>
    some d.data

/-- What the client is shown of a document after a snapshot. -/
def World.sources [DecidableEq User] (w : World User) (user : User)
    (named : List (String × Option ℕ)) (documentID : String) : Source :=
  match named.lookup documentID with
  | none => w.source user documentID
  | some (some n) => .version n
  | some none => ((w.ownWrite user documentID).map .own).getD (w.source user documentID)

/-- The collection as the snapshot shows it. -/
def World.showing [DecidableEq User] (w : World User) (user : User)
    (named : List (String × Option ℕ)) : Table String Fields := fun documentID =>
  (w.sources user named documentID).data w.log documentID

def snapshot [DecidableEq User] (w : World User) (user : User)
    (named : List (String × Option ℕ)) : List DocumentChange :=
  (named.map Prod.fst).filterMap (documentChange (w.shown user) (w.showing user named))

/-- The source misses nothing that was done to the document up to the position. -/
def UpTo (log : List (Change String Fields)) (position : ℕ) (documentID : String) : Source → Prop
  | .version n => n ≤ log.length ∧ (position ≤ n ∨ documentID ∉ touched log n position)
  | .own _ => True

instance (log : List (Change String Fields)) (position : ℕ) (documentID : String)
    (source : Source) : Decidable (UpTo log position documentID source) := by
  cases source <;> unfold UpTo <;> infer_instance

/-- A write of the client's own that has arrived is in the present version. -/
def Source.arrived (present : ℕ) (deletion : Bool) : Source → Source
  | .own data => if data.isNone = deletion then .version present else .own data
  | source => source

def World.arrive [DecidableEq User] (w : World User) (user : User) (documentID : String)
    (deletion : Bool) : World User :=
  { w with source := Function.update w.source user (Function.update (w.source user) documentID
      ((w.source user documentID).arrived w.log.length deletion)) }

/-- A delete request removes the document that it names, if there is one. -/
def World.perform [DecidableEq User] (w : World User) (user : User) : DocumentPath → World User
  | .channel identifier => World.arrive
      (if (current w.log identifier).isSome then { w with log := w.log ++ [.drop identifier] }
        else w) user identifier true
  | .message _ _ => w

def World.withService [DecidableEq User] (w : World User) (user : User) (s : Service) :
    World User :=
  { w with client := Function.update w.client user { w.client user with service := s } }

/-- The request has left the client. -/
def World.sent [DecidableEq User] (w : World User) (user : User) (index : ℕ) : World User :=
  w.withService user { (w.client user).service with
    requests := (w.client user).service.requests.eraseIdx index }

/-- The world after a snapshot. -/
def World.delivered [DecidableEq User] (w : World User) (user : User) (position : ℕ)
    (named : List (String × Option ℕ)) : World User :=
  { w.withService user
      (updateChannels (some (snapshot w user named)) (w.client user).service) with
    position := Function.update w.position user position
    source := Function.update w.source user (w.sources user named) }

def step [DecidableEq User] (w : World User) : Event User → Option (World User)
  | .createChannel user name documentID =>
    if documentID ∉ w.used then
      some { w with
        adding := w.adding ++ [⟨user, documentID, createChannel name⟩]
        used := w.used ++ [documentID] }
    else none
  | .addArrives index =>
    w.adding[index]?.map fun d =>
      World.arrive { w with
        log := w.log ++ [.put d.documentID d.data]
        adding := w.adding.eraseIdx index } d.user d.documentID false
  | .rewrite documentID data =>
    if (current w.log documentID).isSome ∧ (data.string "name").isSome then
      some { w with log := w.log ++ [.put documentID data] }
    else none
  | .requestArrives user index =>
    (w.client user).service.requests[index]?.bind fun path =>
      if ∀ d ∈ w.adding, d.user = user → path ≠ .channel d.documentID then
        some ((w.perform user path).sent user index)
      else none
  | .deliver user position named =>
    if w.position user ≤ position ∧ position ≤ w.log.length ∧ (named.map Prod.fst).Nodup ∧
        (∀ d ∈ named, d.1 ∈ w.used) ∧
        ∀ documentID ∈ w.used, UpTo w.log position documentID (w.sources user named documentID) then
      some (w.delivered user position named)
    else none
  | .act _ (.channelSnapshot _) => none
  | .act user event =>
    (ChatClient.step (w.client user) event).map fun c =>
      { w with client := Function.update w.client user c }

/-- The row that the document of the channel should have. -/
def storedRow (documents : Table String Fields) (identifier : String) : Option ChannelDb :=
  (documents identifier).bind ChannelMirror.rowOfData

/-- The identifier of a document that is or was in the collection. -/
def Logged (log : List (Change String Fields)) (identifier : String) : Prop :=
  identifier ∈ log.map Change.key

/-- The identifier of such a document, or of one that the client is adding. -/
def Known (w : World User) (user : User) (identifier : String) : Prop :=
  Logged w.log identifier ∨ ∃ d ∈ w.adding, d.user = user ∧ d.documentID = identifier

/-- What a client has or asks for goes back to a document. -/
structure FromLog (known : String → Prop) (c : Client) : Prop where
  rows : ∀ i, c.service.store.channels i ≠ none → known i
  listeners : ∀ channel ∈ c.listeners, known channel.identifier
  requests : ∀ i, .channel i ∈ c.service.requests → known i

/-- The client's write is on its way. -/
def Pending (w : World User) (user : User) (documentID : String) : Option Fields → Prop
  | none => .channel documentID ∈ (w.client user).service.requests
  | some data => ∃ d ∈ w.adding, d.user = user ∧ d.documentID = documentID ∧ d.data = data

/-- What holds in every state: a document is added once, under an identifier of its own,
and always has a name, no client is ahead of the collection, and what a client is shown is
not older than what it has received. -/
structure Invariant (w : World User) : Prop where
  log_used : ∀ c, Logged w.log c → c ∈ w.used
  log_named : ∀ c ∈ w.log, ∀ data, c.value = some data → (data.string "name").isSome
  adding_used : ∀ d ∈ w.adding, d.documentID ∈ w.used
  adding_nodup : (w.adding.map Added.documentID).Nodup
  adding_fresh : ∀ d ∈ w.adding, ¬ Logged w.log d.documentID
  adding_named : ∀ d ∈ w.adding, (d.data.string "name").isSome
  position_le : ∀ user, w.position user ≤ w.log.length
  clients : ∀ user, FromLog (Known w user) (w.client user)
  upTo : ∀ user c, UpTo w.log (w.position user) c (w.source user c)
  pending : ∀ user c data, w.source user c = .own data → Pending w user c data

theorem init_invariant : Invariant (World.init : World User) := by
  constructor <;> simp [World.init, Logged, UpTo]
  intro user
  constructor <;> simp [Client.empty, Service.empty, Store.empty]

theorem logged_append {log : List (Change String Fields)} {c : String} (h : Logged log c)
    (later : Change String Fields) : Logged (log ++ [later]) c := by
  rw [Logged, List.map_append]
  exact List.mem_append_left _ h

theorem logged_append_cases {log : List (Change String Fields)} {later : Change String Fields}
    {c : String} (h : Logged (log ++ [later]) c) : Logged log c ∨ c = later.key := by
  rw [Logged, List.map_append] at h
  exact (List.mem_append.mp h).imp id List.mem_singleton.mp

theorem FromLog.mono {known later : String → Prop} {c : Client} (h : FromLog known c)
    (hknown : ∀ i, known i → later i) : FromLog later c where
  rows i hi := hknown i (h.rows i hi)
  listeners channel hc := hknown channel.identifier (h.listeners channel hc)
  requests i hi := hknown i (h.requests i hi)

theorem upTo_append {log : List (Change String Fields)} {position : ℕ} {c : String}
    {source : Source} (hposition : position ≤ log.length) (h : UpTo log position c source)
    (later : Change String Fields) : UpTo (log ++ [later]) position c source := by
  cases source with
  | own data => trivial
  | version n =>
    obtain ⟨hn, hnew⟩ := h
    refine ⟨Nat.le_trans hn (List.length_append ▸ Nat.le_add_right _ _), ?_⟩
    rwa [touched_append hposition]

/-- A change at Firestore shows on no client. -/
theorem shown_append {w : World User} (hw : Invariant w) (later : Change String Fields)
    (user : User) : { w with log := w.log ++ [later] }.shown user = w.shown user := by
  funext c
  have hupTo := hw.upTo user c
  unfold World.shown
  cases hsource : w.source user c with
  | own data => rfl
  | version n =>
    rw [hsource] at hupTo
    simp only [Source.data]
    rw [version_append hupTo.1]

/-- A document changes at Firestore: one that is there, or one that was being added. -/
theorem append_invariant {w : World User} (hw : Invariant w) (later : Change String Fields)
    (hused : later.key ∈ w.used)
    (hnamed : ∀ data, later.value = some data → (data.string "name").isSome)
    (hadding : ∀ d ∈ w.adding, later.key ≠ d.documentID) :
    Invariant { w with log := w.log ++ [later] } := by
  refine { hw with
    log_used := ?_, log_named := ?_, adding_fresh := ?_, position_le := ?_
    clients := fun user => (hw.clients user).mono fun c hc => hc.imp_left (logged_append · later)
    upTo := fun user c => upTo_append (hw.position_le user) (hw.upTo user c) later }
  · intro c hc
    rcases logged_append_cases hc with hlogged | rfl
    · exact hw.log_used c hlogged
    · exact hused
  · intro c hc
    rcases List.mem_append.mp hc with hmem | hmem
    · exact hw.log_named c hmem
    · rw [List.mem_singleton.mp hmem]
      exact hnamed
  · intro d hd hc
    rcases logged_append_cases hc with hlogged | heq
    · exact hw.adding_fresh d hd hlogged
    · exact hadding d hd heq.symm
  · intro user
    exact Nat.le_trans (hw.position_le user) (List.length_append ▸ Nat.le_add_right _ _)

theorem createChannel_invariant {w : World User} (hw : Invariant w) (user : User) (name : String)
    {documentID : String} (hfresh : documentID ∉ w.used) :
    Invariant { w with
      adding := w.adding ++ [⟨user, documentID, createChannel name⟩]
      used := w.used ++ [documentID] } := by
  refine { hw with
    log_used := fun c hc => List.mem_append_left _ (hw.log_used c hc)
    adding_used := ?_, adding_nodup := ?_, adding_fresh := ?_, adding_named := ?_
    clients := fun v => (hw.clients v).mono fun c hc => hc.imp_right ?_
    pending := ?_ }
  · intro d hd
    rcases List.mem_append.mp hd with hold | hnew
    · exact List.mem_append_left _ (hw.adding_used d hold)
    · rw [List.mem_singleton.mp hnew]
      exact List.mem_append_right _ (List.mem_singleton_self _)
  · rw [List.map_append, List.nodup_append]
    refine ⟨hw.adding_nodup, List.nodup_singleton _, ?_⟩
    intro c hc c' hc' heq
    obtain ⟨d, hd, rfl⟩ := List.mem_map.mp hc
    obtain rfl := List.mem_singleton.mp hc'
    exact hfresh (heq ▸ hw.adding_used d hd)
  · intro d hd
    rcases List.mem_append.mp hd with hold | hnew
    · exact hw.adding_fresh d hold
    · rw [List.mem_singleton.mp hnew]
      exact fun hlogged => hfresh (hw.log_used documentID hlogged)
  · intro d hd
    rcases List.mem_append.mp hd with hold | hnew
    · exact hw.adding_named d hold
    · rw [List.mem_singleton.mp hnew]
      rfl
  · rintro ⟨d, hd, hrest⟩
    exact ⟨d, List.mem_append_left _ hd, hrest⟩
  · intro v c data hsource
    have hpending := hw.pending v c data hsource
    cases data with
    | none => exact hpending
    | some data =>
      obtain ⟨d, hd, hrest⟩ := hpending
      exact ⟨d, List.mem_append_left _ hd, hrest⟩

/-- No other document being added has the identifier. -/
theorem addArrives_fresh {w : World User} (hw : Invariant w) {index : ℕ} {d : Added User}
    (hd : w.adding[index]? = some d) :
    ∀ d' ∈ w.adding.eraseIdx index, d.documentID ≠ d'.documentID := by
  have hperm : (d :: w.adding.eraseIdx index).Perm w.adding := cons_eraseIdx_perm hd
  have hnodup : (d.documentID :: (w.adding.eraseIdx index).map Added.documentID).Nodup :=
    ((hperm.map Added.documentID).nodup_iff).mpr hw.adding_nodup
  intro d' hd' heq
  exact (List.nodup_cons.mp hnodup).1 (heq ▸ List.mem_map_of_mem hd')

theorem Source.arrived_cases (present : ℕ) (deletion : Bool) (source : Source) :
    (source.arrived present deletion = source ∧
        ∀ data, source = .own data → data.isNone ≠ deletion) ∨
      (source.arrived present deletion = .version present ∧
        ∃ data, source = .own data ∧ data.isNone = deletion) := by
  cases source with
  | version n => exact Or.inl ⟨rfl, nofun⟩
  | own data =>
    by_cases hdata : data.isNone = deletion
    · exact Or.inr ⟨if_pos hdata, data, rfl, hdata⟩
    · refine Or.inl ⟨if_neg hdata, ?_⟩
      rintro _ ⟨⟩
      exact hdata

section Arrivals

variable [DecidableEq User]

theorem arrive_source (w : World User) (user : User) (documentID : String) (deletion : Bool)
    (v : User) (c : String) : (w.arrive user documentID deletion).source v c =
      if v = user ∧ c = documentID then (w.source v c).arrived w.log.length deletion
      else w.source v c := by
  by_cases hv : v = user
  · subst hv
    by_cases hc : c = documentID
    · subst hc
      simp [World.arrive]
    · simp [World.arrive, hc]
  · simp [World.arrive, hv]

/-- What the client is shown does not change when its write arrives. -/
theorem shown_arrive {w : World User} {user : User} {documentID : String} {deletion : Bool}
    (h : ∀ data, w.source user documentID = .own data → data.isNone = deletion →
      current w.log documentID = data) (v : User) :
    (w.arrive user documentID deletion).shown v = w.shown v := by
  funext c
  change ((w.arrive user documentID deletion).source v c).data w.log c =
    (w.source v c).data w.log c
  rw [arrive_source]
  split
  · rename_i htarget
    obtain ⟨rfl, rfl⟩ := htarget
    rcases (w.source v c).arrived_cases w.log.length deletion with
      ⟨hsame, -⟩ | ⟨hnow, data, hown, hdata⟩
    · rw [hsame]
    · rw [hnow, hown, Source.data, version_length, h data hown hdata]
      rfl
  · rfl

theorem arrive_upTo {w : World User} {user : User} {documentID : String} {deletion : Bool}
    {v : User} {c : String} (hposition : w.position v ≤ w.log.length)
    (h : UpTo w.log (w.position v) c (w.source v c)) :
    UpTo w.log (w.position v) c ((w.arrive user documentID deletion).source v c) := by
  rw [arrive_source]
  split
  · rcases (w.source v c).arrived_cases w.log.length deletion with ⟨hsame, -⟩ | ⟨hnow, -⟩
    · rwa [hsame]
    · rw [hnow]
      exact ⟨Nat.le_refl _, Or.inl hposition⟩
  · exact h

theorem own_of_arrive {w : World User} {user : User} {documentID : String} {deletion : Bool}
    {v : User} {c : String} {data : Option Fields}
    (h : (w.arrive user documentID deletion).source v c = .own data) :
    w.source v c = .own data ∧ (v = user → c = documentID → data.isNone ≠ deletion) := by
  rw [arrive_source] at h
  split at h
  · rcases (w.source v c).arrived_cases w.log.length deletion with ⟨hsame, hother⟩ | ⟨hnow, -⟩
    · rw [hsame] at h
      exact ⟨h, fun _ _ => hother data h⟩
    · rw [hnow] at h
      cases h
  · rename_i hother
    exact ⟨h, fun hv hc => absurd ⟨hv, hc⟩ hother⟩

theorem addArrives_invariant {w : World User} (hw : Invariant w) {index : ℕ} {d : Added User}
    (hd : w.adding[index]? = some d) :
    Invariant (World.arrive { w with
      log := w.log ++ [.put d.documentID d.data]
      adding := w.adding.eraseIdx index } d.user d.documentID false) := by
  have hmem := List.mem_of_getElem? hd
  have hfresh := addArrives_fresh hw hd
  have hsplit : ∀ d' ∈ w.adding, d' = d ∨ d' ∈ w.adding.eraseIdx index := fun d' hd' =>
    List.mem_cons.mp ((cons_eraseIdx_perm hd).mem_iff.mpr hd')
  have hgrow : ∀ user, w.position user ≤ (w.log ++ [Change.put d.documentID d.data]).length :=
    fun user => Nat.le_trans (hw.position_le user) (List.length_append ▸ Nat.le_add_right _ _)
  constructor
  · intro c hc
    rcases logged_append_cases hc with hlogged | rfl
    · exact hw.log_used c hlogged
    · exact hw.adding_used d hmem
  · intro c hc data hdata
    rcases List.mem_append.mp hc with hold | hnew
    · exact hw.log_named c hold data hdata
    · rw [List.mem_singleton.mp hnew] at hdata
      obtain rfl := Option.some.inj hdata
      exact hw.adding_named d hmem
  · exact fun d' hd' => hw.adding_used d' (List.mem_of_mem_eraseIdx hd')
  · exact hw.adding_nodup.sublist ((List.eraseIdx_sublist ..).map _)
  · intro d' hd' hc
    rcases logged_append_cases hc with hlogged | heq
    · exact hw.adding_fresh d' (List.mem_of_mem_eraseIdx hd') hlogged
    · exact hfresh d' hd' heq.symm
  · exact fun d' hd' => hw.adding_named d' (List.mem_of_mem_eraseIdx hd')
  · exact hgrow
  · intro user
    refine (hw.clients user).mono fun c hc => ?_
    rcases hc with hlogged | ⟨d', hd', huser, rfl⟩
    · exact Or.inl (logged_append hlogged _)
    · rcases hsplit d' hd' with rfl | hlater
      · have hlast : Change.put d'.documentID d'.data ∈ w.log ++ [.put d'.documentID d'.data] :=
          List.mem_append_right _ (List.mem_singleton_self _)
        exact Or.inl (List.mem_map.mpr ⟨_, hlast, rfl⟩)
      · exact Or.inr ⟨d', hlater, huser, rfl⟩
  · intro user c
    exact arrive_upTo (hgrow user) (upTo_append (hw.position_le user) (hw.upTo user c) _)
  · intro user c data hsource
    obtain ⟨hown, htarget⟩ := own_of_arrive hsource
    have hpending := hw.pending user c data hown
    cases data with
    | none => exact hpending
    | some data =>
      obtain ⟨d', hd', rfl, rfl, rfl⟩ := hpending
      rcases hsplit d' hd' with rfl | hlater
      · exact absurd rfl (htarget rfl rfl)
      · exact ⟨d', hlater, rfl, rfl, rfl⟩

theorem addArrives_shown {w : World User} (hw : Invariant w) {index : ℕ} {d : Added User}
    (hd : w.adding[index]? = some d) (user : User) :
    (World.arrive { w with
      log := w.log ++ [.put d.documentID d.data]
      adding := w.adding.eraseIdx index } d.user d.documentID false).shown user =
        w.shown user := by
  rw [shown_arrive]
  · exact shown_append hw _ user
  · intro data hown hdata
    cases data with
    | none => cases hdata
    | some data =>
      obtain ⟨d', hd', -, hid, rfl⟩ := hw.pending _ _ _ hown
      obtain rfl : d' = d :=
        List.inj_on_of_nodup_map hw.adding_nodup hd' (List.mem_of_getElem? hd) hid
      exact (congrFun (current_append_singleton ..) _).trans (apply_put_self ..)

end Arrivals

section Requests

variable [DecidableEq User]

theorem perform_client (w : World User) (user : User) (path : DocumentPath) :
    (w.perform user path).client = w.client := by
  cases path with
  | message channel identifier => rfl
  | channel identifier =>
    rw [World.perform]
    split <;> rfl

theorem perform_adding (w : World User) (user : User) (path : DocumentPath) :
    (w.perform user path).adding = w.adding := by
  cases path with
  | message channel identifier => rfl
  | channel identifier =>
    rw [World.perform]
    split <;> rfl

theorem perform_used (w : World User) (user : User) (path : DocumentPath) :
    (w.perform user path).used = w.used := by
  cases path with
  | message channel identifier => rfl
  | channel identifier =>
    rw [World.perform]
    split <;> rfl

theorem perform_log (w : World User) (user : User) (path : DocumentPath) :
    (w.perform user path).log = w.log ∨ ∃ identifier, path = .channel identifier ∧
      current w.log identifier ≠ none ∧
        (w.perform user path).log = w.log ++ [.drop identifier] := by
  cases path with
  | message channel identifier => exact Or.inl rfl
  | channel identifier =>
    rw [World.perform]
    split
    · rename_i hlive
      exact Or.inr ⟨identifier, rfl, Option.isSome_iff_ne_none.mp hlive, rfl⟩
    · exact Or.inl rfl

theorem arrive_invariant {w : World User} (hw : Invariant w) (user : User) (documentID : String)
    (deletion : Bool) : Invariant (w.arrive user documentID deletion) where
  log_used := hw.log_used
  log_named := hw.log_named
  adding_used := hw.adding_used
  adding_nodup := hw.adding_nodup
  adding_fresh := hw.adding_fresh
  adding_named := hw.adding_named
  position_le := hw.position_le
  clients := hw.clients
  upTo v c := arrive_upTo (hw.position_le v) (hw.upTo v c)
  pending v c data h := hw.pending v c data (own_of_arrive h).1

omit [DecidableEq User] in
theorem drop_invariant {w : World User} (hw : Invariant w) {identifier : String}
    (hlive : current w.log identifier ≠ none) :
    Invariant { w with log := w.log ++ [.drop identifier] } := by
  have hlogged : Logged w.log identifier := mem_log_of_current hlive
  refine append_invariant hw (.drop identifier) (hw.log_used _ hlogged) nofun ?_
  rintro d hd rfl
  exact hw.adding_fresh d hd hlogged

/-- A request that arrives shows on no client. -/
theorem perform_invariant {w : World User} (hw : Invariant w) (user : User) (path : DocumentPath) :
    Invariant (w.perform user path) ∧ ∀ v, (w.perform user path).shown v = w.shown v := by
  cases path with
  | message channel identifier => exact ⟨hw, fun _ => rfl⟩
  | channel identifier =>
    have hdeletion {log : List (Change String Fields)} (hnone : current log identifier = none)
        (data : Option Fields) (hdata : data.isNone = true) : current log identifier = data :=
      hnone.trans (Option.isNone_iff_eq_none.mp hdata).symm
    rw [World.perform]
    split
    · rename_i hlive
      refine ⟨arrive_invariant (drop_invariant hw (Option.isSome_iff_ne_none.mp hlive)) ..,
        fun v => ?_⟩
      rw [shown_arrive, shown_append hw]
      intro data _ hdata
      refine hdeletion ?_ data hdata
      exact (congrFun (current_append_singleton ..) _).trans (apply_drop_self ..)
    · rename_i hdead
      refine ⟨arrive_invariant hw .., fun v => shown_arrive (fun data _ hdata => ?_) v⟩
      exact hdeletion (by simpa using hdead) data hdata

/-- After a deletion of the client's has arrived, none of it is shown that has not. -/
theorem perform_source {w : World User} {user : User} {identifier : String} :
    (w.perform user (.channel identifier)).source user identifier ≠ .own none := by
  have harrived (w : World User) :
      (w.arrive user identifier true).source user identifier ≠ .own none := by
    intro h
    exact (own_of_arrive h).2 rfl rfl rfl
  rw [World.perform]
  exact harrived _

theorem sent_client_self (w : World User) (user : User) (index : ℕ) :
    (w.sent user index).client user = { w.client user with
      service := { (w.client user).service with
        requests := (w.client user).service.requests.eraseIdx index } } :=
  Function.update_self ..

theorem sent_client_of_ne (w : World User) {user other : User} (h : other ≠ user) (index : ℕ) :
    (w.sent user index).client other = w.client other := Function.update_of_ne h ..

theorem sent_invariant {w : World User} (hw : Invariant w) {user : User} {index : ℕ}
    {path : DocumentPath} (hpath : (w.client user).service.requests[index]? = some path)
    (hsource : ∀ c, path = .channel c → w.source user c ≠ .own none) :
    Invariant (w.sent user index) := by
  refine { hw with clients := fun v => ?_, pending := fun v c data hown => ?_ }
  · by_cases hv : v = user
    · subst hv
      rw [sent_client_self]
      have hclient := hw.clients v
      exact { hclient with
        requests := fun i hi => hclient.requests i (List.mem_of_mem_eraseIdx hi) }
    · rw [sent_client_of_ne w hv]
      exact hw.clients v
  · have hpending := hw.pending v c data hown
    cases data with
    | some data => exact hpending
    | none =>
      change DocumentPath.channel c ∈ ((w.sent user index).client v).service.requests
      by_cases hv : v = user
      · subst hv
        rw [sent_client_self]
        refine (List.mem_cons.mp ((cons_eraseIdx_perm hpath).mem_iff.mpr hpending)).resolve_left ?_
        exact fun heq => hsource c heq.symm hown
      · rw [sent_client_of_ne w hv]
        exact hpending

theorem requestArrives_eq_some {w v : World User} {user : User} {index : ℕ} :
    step w (.requestArrives user index) = some v ↔ ∃ path,
      (w.client user).service.requests[index]? = some path ∧
      (∀ d ∈ w.adding, d.user = user → path ≠ .channel d.documentID) ∧
      v = (w.perform user path).sent user index := by
  simp only [step, Option.bind_eq_some_iff]
  constructor
  · rintro ⟨path, hpath, hv⟩
    obtain ⟨hfollows, heq⟩ := Option.ite_none_right_eq_some.mp hv
    exact ⟨path, hpath, hfollows, (Option.some.inj heq).symm⟩
  · rintro ⟨path, hpath, hfollows, rfl⟩
    exact ⟨path, hpath, if_pos hfollows⟩

theorem requestArrives_invariant {w : World User} (hw : Invariant w) {user : User} {index : ℕ}
    {path : DocumentPath} (hpath : (w.client user).service.requests[index]? = some path) :
    Invariant ((w.perform user path).sent user index) := by
  apply sent_invariant (perform_invariant hw user path).1
  · rw [perform_client]
    exact hpath
  · rintro c rfl
    exact perform_source

theorem requestArrives_shown {w : World User} (hw : Invariant w) (user : User) (index : ℕ)
    (path : DocumentPath) (v : User) :
    ((w.perform user path).sent user index).shown v = w.shown v :=
  (perform_invariant hw user path).2 v

end Requests

end TinkoffChat.ChannelWorld

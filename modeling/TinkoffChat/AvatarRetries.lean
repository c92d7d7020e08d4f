import TinkoffChat.ImagePicker

/-!
The picker of avatars and the requests that fail. An item is marked when it is
fetched, and only an image that came takes the mark away. A request that could
not be built, or ended without an image, leaves its item marked with nothing
under way, and no cell fetches it again.
-/
namespace TinkoffChat.AvatarRetries

open PartialRuns ProfileFiles AvatarService ImagePicker

variable {Image URL : Type*}

/-- An item is marked as fetching exactly while a request for it is under way, and a cell
that is shown fetches an item that has neither an image nor a request. -/
structure Retries (foundation : Foundation URL) (kit : UIKit Image) (s : Picker Image) : Prop where
  outstanding : ∀ index a, s.images[index]? = some a →
    (a.isFetching = true ↔ index ∈ s.imageRequests.map Prod.fst)
  fetched : ∀ index a, s.images[index]? = some a → a.image = none →
    index ∉ s.imageRequests.map Prod.fst →
    step foundation kit s (.cellForItemAt index) = some (fetchImage foundation index a s)

/-- The request for an item can be built, and a task that ends has brought an image. -/
def Brings (foundation : Foundation URL) (kit : UIKit Image) (s : Picker Image) : Event → Prop
  | .cellForItemAt item => ∀ a, s.images[item]? = some a → a.image = none →
      a.isFetching = false → (imageRequest foundation a.url).isSome
  | .imageEnded _ completion => ∃ data, completion.Delivers data ∧ (kit.image data).isSome
  | _ => True

/-- An item that is marked as fetching is carried. -/
def Awaited (s : Picker Image) : Prop :=
  ∀ index a, s.images[index]? = some a → a.isFetching = true → index ∈ (carried s).map Prod.fst

variable {foundation : Foundation URL} {kit : UIKit Image} {s t : Picker Image} {index : ℕ}
  {model : AvatarViewModel Image}

theorem awaited_congr (himages : t.images = s.images)
    (hcarried : ∀ i, i ∈ (carried t).map Prod.fst ↔ i ∈ (carried s).map Prod.fst) :
    Awaited t ↔ Awaited s := by
  simp only [Awaited, himages, hcarried]

/-- It is the same in two states that differ at one index, if the item there is carried or
not marked in both. -/
theorem awaited_iff_of_ne (index : ℕ)
    (himages : ∀ i, i ≠ index → t.images[i]? = s.images[i]?)
    (hcarried : ∀ i, i ≠ index →
      (i ∈ (carried t).map Prod.fst ↔ i ∈ (carried s).map Prod.fst))
    (ht : ∀ a, t.images[index]? = some a → a.isFetching = true →
      index ∈ (carried t).map Prod.fst)
    (hs : ∀ a, s.images[index]? = some a → a.isFetching = true →
      index ∈ (carried s).map Prod.fst) : Awaited t ↔ Awaited s := by
  constructor
  · intro h i a ha hfetching
    by_cases hi : i = index
    · subst i
      exact hs a ha hfetching
    · exact (hcarried i hi).mp (h i a ((himages i hi).trans ha) hfetching)
  · intro h i a ha hfetching
    by_cases hi : i = index
    · subst i
      exact ht a ha hfetching
    · exact (hcarried i hi).mpr (h i a ((himages i hi).symm.trans ha) hfetching)

theorem mem_carried_cons {carriedOn rest : List (ℕ × AvatarViewModel Image)}
    {w : ℕ × AvatarViewModel Image} (hperm : carriedOn.Perm (w :: rest)) {i : ℕ} :
    i ∈ carriedOn.map Prod.fst ↔ i = w.1 ∨ i ∈ rest.map Prod.fst := by
  rw [(hperm.map Prod.fst).mem_iff, List.map_cons, List.mem_cons]

theorem carried_refused (h : imageRequest foundation model.url = none) :
    carried (fetchImage foundation index model s) = carried s := by
  rw [fetchImage_refused (congrArg send h)]
  exact carried_alert (write index _ s) _

theorem carried_sent {url : URL} (h : imageRequest foundation model.url = some url) :
    (carried (fetchImage foundation index model s)).Perm
      ((index, { model with isFetching := true }) :: carried s) := by
  rw [fetchImage_sent (congrArg send h)]
  exact carried_request (write index _ s) _

theorem fetchImage_awaited_iff (hs : Slots kit s) {a : AvatarViewModel Image}
    (ha : s.images[index]? = some a) (hidle : a.isFetching = false) :
    Awaited (fetchImage foundation index a s) ↔
      (imageRequest foundation a.url).isSome ∧ Awaited s := by
  have himages := fetchImage_images foundation index a s
  have hlt := (List.getElem?_eq_some_iff.mp ha).1
  cases hrequest : imageRequest foundation a.url with
  | none =>
    -- the item is marked, and its handler is called before anything is sent
    refine iff_of_false (fun h => not_carried hs ha hidle ?_) (fun h => Bool.false_ne_true h.1)
    rw [← carried_refused hrequest]
    exact h index { a with isFetching := true } (by rw [himages, List.getElem?_set_self hlt]) rfl
  | some url =>
    rw [Option.isSome_some, and_iff_right rfl]
    have hperm : (carried (fetchImage foundation index a s)).Perm _ := carried_sent hrequest
    refine awaited_iff_of_ne index (fun i hi => ?_) (fun i hi => ?_)
      (fun _ _ _ => (mem_carried_cons hperm).mpr (Or.inl rfl)) (fun b hb hfetching => ?_)
    · rw [himages, List.getElem?_set_ne hi.symm]
    · exact (mem_carried_cons hperm).trans (or_iff_right hi)
    · obtain rfl := Option.some.inj (ha.symm.trans hb)
      exact absurd (hidle.symm.trans hfetching) Bool.false_ne_true

/-- What is written back of a response: its own item, if an image came with it. -/
theorem mem_answered_iff (kit : UIKit Image) (index : ℕ) (model : AvatarViewModel Image)
    (completion : Completion) (i : ℕ) :
    i ∈ (((loadImage completion).elim [] (imageBlocks kit index model)).filterMap
      Block.updated).map Prod.fst ↔
    i = index ∧ ∃ data, completion.Delivers data ∧ (kit.image data).isSome := by
  simp only [← loadImage_eq_ok_iff]
  cases loadImage completion with
  | none => simp
  | some result =>
    cases result with
    | error error => simp [imageBlocks, Block.updated]
    | ok data => cases himage : kit.image data <;> simp [imageBlocks, Block.updated, himage]

/-- A task that ended leaves its item awaited if an image came with it, and only then. -/
theorem imageEnded_awaited_iff (hs : Slots kit s) {request : ℕ} {r : ℕ × AvatarViewModel Image}
    (hr : s.imageRequests[request]? = some r) (completion : Completion) :
    Awaited { s with
      imageRequests := s.imageRequests.eraseIdx request
      main := s.main ++ (loadImage completion).elim [] (imageBlocks kit r.1 r.2)
      responses := s.responses ++ [(r.2.url, completion)] } ↔
    (∃ data, completion.Delivers data ∧ (kit.image data).isSome) ∧ Awaited s := by
  obtain ⟨-, hfree⟩ := ended_slots hs hr []
  have hperm := carried_ended hr
  obtain ⟨a, ha, -, hfetching⟩ := hs.carried_fetching r (hperm.mem_iff.mpr List.mem_cons_self)
  have hmem (i : ℕ) : i ∈ (carried { s with
      imageRequests := s.imageRequests.eraseIdx request
      main := s.main ++ (loadImage completion).elim [] (imageBlocks kit r.1 r.2)
      responses := s.responses ++ [(r.2.url, completion)] }).map Prod.fst ↔
      i ∈ (carried { s with imageRequests := s.imageRequests.eraseIdx request }).map Prod.fst ∨
        i = r.1 ∧ ∃ data, completion.Delivers data ∧ (kit.image data).isSome := by
    rw [← mem_answered_iff kit r.1 r.2, ← List.mem_append, ← List.map_append]
    rw [← carried_main { s with imageRequests := s.imageRequests.eraseIdx request }]
    rfl
  by_cases himage : ∃ data, completion.Delivers data ∧ (kit.image data).isSome
  · rw [and_iff_right himage]
    refine awaited_congr rfl fun i => ?_
    rw [hmem, and_iff_left himage, or_comm, mem_carried_cons hperm]
  · refine iff_of_false (fun h => ?_) (fun h => himage h.1)
    rcases (hmem r.1).mp (h r.1 a ha hfetching) with hrest | hanswered
    · exact hfree hrest
    · exact himage hanswered.2

/-- A block writes back what it carried, and takes the mark of its item away. -/
theorem run_awaited_iff (hs : Slots kit s) {block : ℕ} {b : Block Image}
    (hb : s.main[block]? = some b) :
    Awaited (b.run { s with main := s.main.eraseIdx block }) ↔ Awaited s := by
  have hmem := List.mem_of_getElem? hb
  have hperm := carried_dequeued hb
  cases b with
  | stopAnimating => exact awaited_congr rfl fun i => ((hperm.map Prod.fst).mem_iff (a := i)).symm
  | showErrorAlert error =>
    exact awaited_congr rfl fun i => ((hperm.map Prod.fst).mem_iff (a := i)).symm
  | update avatars =>
    -- nothing is marked before the list has come, and nothing of the list is
    have hpending : 0 < pendingLists s :=
      Nat.add_pos_right _ (List.countP_pos_iff.mpr ⟨_, hmem, rfl⟩)
    refine iff_of_true (fun i a ha hfetching => ?_) (fun i a ha _ => ?_)
    · have hidle := hs.fresh avatars hmem a (List.mem_of_getElem? ha)
      exact absurd (hidle.symm.trans hfetching) Bool.false_ne_true
    · rw [hs.awaiting hpending] at ha
      cases ha
  | updateCell index model =>
    have hcons : (carried s).Perm
        ((index, model) :: carried { s with main := s.main.eraseIdx block }) := hperm
    refine awaited_iff_of_ne index (fun i hi => List.getElem?_set_ne hi.symm)
      (fun i hi => ?_) (fun a ha hfetching => ?_)
      (fun _ _ _ => (mem_carried_cons hcons).mpr (Or.inl rfl))
    · exact ((mem_carried_cons hcons).trans (or_iff_right hi)).symm
    · obtain rfl : model = a := by
        have hlt := (List.getElem?_eq_some_iff.mp ha).1
        rw [Block.run, write, List.getElem?_set_self (by simpa [Block.run, write] using hlt)] at ha
        exact Option.some.inj ha
      exact absurd ((hs.updated index model hmem).symm.trans hfetching) Bool.false_ne_true

theorem viewDidLoad_awaited (foundation : Foundation URL) (apiKey : String) :
    Awaited (viewDidLoad foundation apiKey : Picker Image) := by
  unfold viewDidLoad
  cases send (imageListRequest foundation apiKey) with
  | none => exact fun _ _ ha => nomatch ha
  | some error => exact fun _ _ ha => nomatch ha

theorem step_awaited_iff {e : Event} (hs : Slots kit s) (h : step foundation kit s e = some t) :
    Awaited t ↔ Brings foundation kit s e ∧ Awaited s := by
  have hshown {item : ℕ} {a : AvatarViewModel Image} (ha : s.images[item]? = some a) :
      Brings foundation kit s (.cellForItemAt item) ↔
        (a.image = none → a.isFetching = false → (imageRequest foundation a.url).isSome) := by
    simp [Brings, ha]
  rcases step_cases h with ⟨completion, rfl, -, rfl⟩ |
    ⟨item, a, rfl, ha, ⟨himage, hidle, rfl⟩ | ⟨hleft, rfl⟩⟩ |
    ⟨request, completion, r, rfl, hr, rfl⟩ | ⟨block, b, rfl, hb, rfl⟩
  · refine Iff.trans ?_ (and_iff_right trivial).symm
    exact awaited_congr rfl fun i => by rw [carried_listEnded]
  · rw [hshown ha, fetchImage_awaited_iff hs ha hidle, forall_prop_of_true himage,
      forall_prop_of_true hidle]
  · exact (and_iff_right ((hshown ha).mpr fun himage hidle => absurd ⟨himage, hidle⟩ hleft)).symm
  · exact imageEnded_awaited_iff hs hr completion
  · exact (run_awaited_iff hs hb).trans (and_iff_right trivial).symm

/-- Nothing but requests is carried while the main queue is empty. -/
theorem retries_iff_awaited (hs : Slots kit s) (hmain : s.main = []) :
    Retries foundation kit s ↔ Awaited s := by
  have hcarried : carried s = s.imageRequests := by
    rw [carried, hmain]
    exact List.append_nil _
  unfold Awaited
  rw [hcarried]
  constructor
  · intro h index a ha hfetching
    exact (h.outstanding index a ha).mp hfetching
  · intro h
    have houtstanding : ∀ index a, s.images[index]? = some a →
        (a.isFetching = true ↔ index ∈ s.imageRequests.map Prod.fst) := by
      refine fun index a ha => ⟨h index a ha, fun hmem => ?_⟩
      by_contra hidle
      exact not_carried hs ha (Bool.of_not_eq_true hidle) (hcarried ▸ hmem)
    refine ⟨houtstanding, fun index a ha himage hfree => ?_⟩
    have hidle : a.isFetching = false :=
      Bool.of_not_eq_true (mt (houtstanding index a ha).mp hfree)
    have hlt : index < s.numberOfItems :=
      hs.numberOfItems_eq ▸ (List.getElem?_eq_some_iff.mp ha).1
    simp [step, cellForItemAt, hlt, ha, himage, hidle]

/-- With an empty main queue the marks are right, and every item without an image and a
request can be fetched again, if and only if whatever was fetched in the run came. -/
theorem retries_iff (foundation : Foundation URL) (kit : UIKit Image) (apiKey : String)
    {es : List Event} {s : Picker Image}
    (h : run (step foundation kit) (viewDidLoad foundation apiKey) es = some s)
    (hmain : s.main = []) :
    Retries foundation kit s ↔
      Along (step foundation kit) (Brings foundation kit) (viewDidLoad foundation apiKey) es := by
  have hiff (s : Picker Image) (e : Event) (t : Picker Image) (hs : Slots kit s)
      (h : step foundation kit s e = some t) :
      Awaited t ↔ Brings foundation kit s e ∧ Awaited s := step_awaited_iff hs h
  have hawaited := run_iff (fun _ _ _ hs h => step_slots hs h) hiff
    (viewDidLoad_slots foundation kit apiKey) h
  rw [retries_iff_awaited (reachable_slots h) hmain, hawaited]
  exact and_iff_left (viewDidLoad_awaited foundation apiKey)

theorem retries_bothFetched :
    ∃ s, run (step twoHits plainKit) (viewDidLoad twoHits "key") bothFetched = some s ∧
      s.main = [] ∧ Retries twoHits plainKit s := by
  obtain ⟨s, hrun, hmain⟩ :
      ∃ s, run (step twoHits plainKit) (viewDidLoad twoHits "key") bothFetched = some s ∧
        s.main = [] := ⟨_, rfl, rfl⟩
  refine ⟨s, hrun, hmain, (retries_iff twoHits plainKit "key" hrun hmain).mpr ?_⟩
  have hdelivered : (delivered .empty).Delivers .empty :=
    ⟨rfl, fun code hcode => Option.some.inj hcode ▸ by decide, rfl⟩
  refine along_of_forall_mem (fun e he u => ?_) _
  cases e with
  | listEnded completion => trivial
  | cellForItemAt item => exact fun _ _ _ _ => rfl
  | imageEnded request completion =>
    have hended : (request = 1 ∨ request = 0) ∧ completion = delivered .empty := by
      simpa [bothFetched, or_and_right] using he
    obtain ⟨-, rfl⟩ := hended
    exact ⟨_, hdelivered, rfl⟩
  | main block => trivial

/-- The connection is lost while the first picture is fetched. -/
def connectionLost : List Event :=
  [.listEnded (delivered .empty), .main 0, .main 0, .cellForItemAt 0,
    .imageEnded 0 ⟨none, none, some "The network connection was lost."⟩, .main 0]

theorem not_retries :
    ¬ ∀ es s, run (step twoHits plainKit) (viewDidLoad twoHits "key") es = some s →
      s.main = [] → Retries twoHits plainKit s := by
  intro h
  have hlost := h connectionLost _ rfl rfl
  have hmem := (hlost.outstanding 0 _ rfl).mp rfl
  cases hmem

end TinkoffChat.AvatarRetries

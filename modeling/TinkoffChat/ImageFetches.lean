import TinkoffChat.ImagePicker

/-!
How often the picker fetches. An item is marked before its request is made and its
image is written when it came, so each item is fetched at most once, whatever cells are
shown and in whatever order the requests end. What was written to an item can be read
off its present value.
-/
namespace TinkoffChat.ImageFetches

open PartialRuns ProfileFiles AvatarService ImagePicker

variable {Image URL : Type*}

/-- What the delegate gets from a tap on a cell; the picker is dismissed then. -/
def didSelectItemAt (item : ℕ) (s : Picker Image) : Option Image :=
  s.images[item]?.bind AvatarViewModel.image

/-- A cell that is shown would fetch the item. -/
def idle (model : AvatarViewModel Image) : Bool := model.image.isNone && !model.isFetching

/-- The requests made for the url, under way or ended. -/
def requested (url : String) (s : Picker Image) : ℕ :=
  (s.responses.map Prod.fst).count url + (s.imageRequests.map fun r => r.2.url).count url

/-- The items of the url that no cell has fetched. -/
def unfetched (url : String) (s : Picker Image) : ℕ :=
  s.images.countP fun model => idle model && decide (model.url = url)

def marked (model : AvatarViewModel Image) : AvatarViewModel Image :=
  { model with image := none, isFetching := true }

/-- What was written to the item, by what it is now: nothing, the mark, or the mark and then
the image. -/
def history (index : ℕ) (model : AvatarViewModel Image) : List (ℕ × AvatarViewModel Image) :=
  match model.image with
  | some _ => [(index, marked model), (index, model)]
  | none => if model.isFetching then [(index, model)] else []

/-- The writes to one item, in their order. -/
def writesAt (index : ℕ) (s : Picker Image) : List (ℕ × AvatarViewModel Image) :=
  s.writes.filter fun w => w.1 = index

/-- Requests and items that were not fetched add up to the links, where a request can be
built at all, and each item has the writes that its value tells. -/
structure Counted (foundation : Foundation URL) (s : Picker Image) : Prop where
  listed : ∀ avatars, .update avatars ∈ s.main → ∀ a ∈ avatars, idle a = true
  shown : ∀ index model, .updateCell index model ∈ s.main → model.image ≠ none
  made : ∀ url, (imageRequest foundation url).isSome →
    requested url s + unfetched url s = s.links.count url
  refused : ∀ url, imageRequest foundation url = none → requested url s = 0
  written : ∀ index, writesAt index s = (s.images[index]?.map (history index)).getD []

variable {foundation : Foundation URL} {kit : UIKit Image} {s t : Picker Image} {index : ℕ}
  {model : AvatarViewModel Image}

theorem idle_iff : idle model = true ↔ model.image = none ∧ model.isFetching = false := by
  simp [idle]

theorem counted_of_same (hs : Counted foundation s) (himages : t.images = s.images)
    (hlinks : t.links = s.links) (hwrites : t.writes = s.writes)
    (hrequested : ∀ url, requested url t = requested url s)
    (hlisted : ∀ avatars, .update avatars ∈ t.main → ∀ a ∈ avatars, idle a = true)
    (hshown : ∀ index model, .updateCell index model ∈ t.main → model.image ≠ none) :
    Counted foundation t where
  listed := hlisted
  shown := hshown
  made url hurl := by
    rw [hrequested, unfetched, himages, hlinks]
    exact hs.made url hurl
  refused url hurl := (hrequested url).trans (hs.refused url hurl)
  written i := by
    rw [writesAt, hwrites, himages]
    exact hs.written i

/-- A write to an item that continues its history. -/
theorem writesAt_write (hs : ∀ i, writesAt i s = (s.images[i]?.map (history i)).getD [])
    {a : AvatarViewModel Image} (ha : s.images[index]? = some a)
    (hhistory : history index model = history index a ++ [(index, model)]) (i : ℕ) :
    writesAt i (write index model s) =
      ((write index model s).images[i]?.map (history i)).getD [] := by
  have hlt := (List.getElem?_eq_some_iff.mp ha).1
  have hold := hs i
  by_cases hi : index = i
  · subst hi
    rw [ha] at hold
    simp only [writesAt, write, List.filter_append, List.getElem?_set_self hlt, Option.map_some,
      Option.getD_some, hhistory]
    rw [← writesAt, hold]
    simp
  · simp only [writesAt, write, List.filter_append, List.getElem?_set_ne hi]
    rw [← writesAt, hold]
    simp [hi]

/-- An item that is written stops being one that was not fetched. -/
theorem unfetched_write {a : AvatarViewModel Image} (ha : s.images[index]? = some a)
    (hmodel : idle model = false) (url : String) :
    unfetched url (write index model s) + (if idle a ∧ a.url = url then 1 else 0) =
      unfetched url s := by
  obtain ⟨hlt, rfl⟩ := List.getElem?_eq_some_iff.mp ha
  have hmem := List.getElem_mem hlt
  simp only [unfetched, write, List.countP_set hlt, hmodel]
  by_cases hcounted : idle s.images[index] = true ∧ s.images[index].url = url
  · have hpos : 0 < s.images.countP fun model => idle model && decide (model.url = url) :=
      List.countP_pos_iff.mpr ⟨_, hmem, by simp [hcounted.1, hcounted.2]⟩
    simp only [hcounted.1, hcounted.2]
    simp
    omega
  · have hout : (idle s.images[index] && decide (s.images[index].url = url)) = false := by
      simpa using hcounted
    simp [hcounted, hout]

theorem history_fetching (index : ℕ) (hidle : idle model = true) :
    history index { model with isFetching := true } =
      history index model ++ [(index, { model with isFetching := true })] := by
  obtain ⟨himage, hfetching⟩ := idle_iff.mp hidle
  simp [history, himage, hfetching]

/-- The image is the second thing written to an item that was marked. -/
theorem history_image {a : AvatarViewModel Image} (index : ℕ) (hnone : a.image = none)
    (hfetching : a.isFetching = true) (hurl : model.url = a.url) (himage : model.image ≠ none) :
    history index model = history index a ++ [(index, model)] := by
  have hmarked : marked model = a := by
    obtain ⟨image, url, isFetching⟩ := a
    obtain rfl : image = none := hnone
    obtain rfl : isFetching = true := hfetching
    obtain rfl : model.url = url := hurl
    rfl
  obtain ⟨image, hsome⟩ := Option.ne_none_iff_exists'.mp himage
  simp [history, hnone, hfetching, hsome, hmarked]

theorem requested_sent (url : String) (s : Picker Image) (r : ℕ × AvatarViewModel Image) :
    requested url { s with imageRequests := s.imageRequests ++ [r] } =
      requested url s + if r.2.url = url then 1 else 0 := by
  simp [requested, List.count_append, List.count_singleton, Nat.add_assoc]

/-- A request that ends is counted as before. -/
theorem requested_ended {request : ℕ} {r : ℕ × AvatarViewModel Image}
    (hr : s.imageRequests[request]? = some r) (completion : Completion)
    (blocks : List (Block Image)) (url : String) :
    requested url { s with
      imageRequests := s.imageRequests.eraseIdx request
      main := s.main ++ blocks
      responses := s.responses ++ [(r.2.url, completion)] } = requested url s := by
  have hcount := ((cons_eraseIdx_perm hr).map fun r => r.2.url).count_eq url
  simp only [List.map_cons, List.count_cons] at hcount
  simp only [requested, List.map_append, List.count_append, ← hcount, List.map_cons, List.map_nil,
    List.count_cons, List.count_nil]
  omega

theorem fetchImage_counted (hs : Counted foundation s) {a : AvatarViewModel Image}
    (ha : s.images[index]? = some a) (hidle : idle a = true) :
    Counted foundation (fetchImage foundation index a s) := by
  have hbusy : idle { a with isFetching := true } = false := by simp [idle]
  have hwritten := writesAt_write hs.written ha (history_fetching index hidle)
  have hunfetched := unfetched_write ha hbusy
  cases hsend : imageRequest foundation a.url with
  | none =>
    rw [fetchImage_refused (congrArg send hsend)]
    exact {
      listed := fun avatars hmem => hs.listed avatars (by simpa using hmem)
      shown := fun i m hmem => hs.shown i m (by simpa using hmem)
      made := fun url hurl => by
        have hne : a.url ≠ url := by
          rintro rfl
          rw [hsend] at hurl
          cases hurl
        have hsame := hunfetched url
        rw [if_neg fun h => hne h.2] at hsame
        exact (congrArg _ hsame).trans (hs.made url hurl)
      refused := hs.refused
      written := hwritten }
  | some request =>
    rw [fetchImage_sent (congrArg send hsend)]
    exact {
      listed := hs.listed
      shown := hs.shown
      made := fun url hurl => by
        have hcounted := hunfetched url
        simp only [hidle, true_and] at hcounted
        calc _ = requested url s + (if a.url = url then 1 else 0) +
              unfetched url (write index { a with isFetching := true } s) :=
            congrArg (· + _) (requested_sent url (write index _ s) _)
          _ = requested url s + unfetched url s := by omega
          _ = s.links.count url := hs.made url hurl
      refused := fun url hurl => by
        have hne : a.url ≠ url := by
          rintro rfl
          rw [hsend] at hurl
          cases hurl
        refine (requested_sent url (write index _ s) _).trans ?_
        rw [if_neg hne]
        exact hs.refused url hurl
      written := hwritten }

theorem listEnded_counted (hs : Counted foundation s)
    (result : Option (Except NetworkError (List String))) :
    Counted foundation { s with
      listRequest := false
      main := s.main ++ result.elim [] listBlocks } := by
  refine counted_of_same hs rfl rfl rfl (fun _ => rfl) ?_ ?_
  · intro avatars hmem a ha
    rcases List.mem_append.mp hmem with hold | hnew
    · exact hs.listed avatars hold a ha
    · rcases result with _ | _ | links
      · cases hnew
      · simp [listBlocks] at hnew
      · obtain rfl : avatars = links.map fun url => ⟨none, url, false⟩ := by
          simpa [listBlocks] using hnew
        obtain ⟨url, -, rfl⟩ := List.mem_map.mp ha
        rfl
  · intro i m hmem
    rcases List.mem_append.mp hmem with hold | hnew
    · exact hs.shown i m hold
    · rcases result with _ | _ | links <;> simp [listBlocks] at hnew

theorem imageEnded_counted (hs : Counted foundation s) {request : ℕ}
    {r : ℕ × AvatarViewModel Image} (hr : s.imageRequests[request]? = some r)
    (completion : Completion) :
    Counted foundation { s with
      imageRequests := s.imageRequests.eraseIdx request
      main := s.main ++ (loadImage completion).elim [] (imageBlocks kit r.1 r.2)
      responses := s.responses ++ [(r.2.url, completion)] } := by
  refine counted_of_same hs rfl rfl rfl (requested_ended hr completion _) ?_ ?_
  · intro avatars hmem
    rcases List.mem_append.mp hmem with hold | hnew
    · exact hs.listed avatars hold
    · rcases imageBlocks_cases kit r.1 r.2 (loadImage completion) with
        hblocks | ⟨error, hblocks⟩ | ⟨data, image, -, -, hblocks⟩ <;> simp [hblocks] at hnew
  · intro i m hmem
    rcases List.mem_append.mp hmem with hold | hnew
    · exact hs.shown i m hold
    · rcases imageBlocks_cases kit r.1 r.2 (loadImage completion) with
        hblocks | ⟨error, hblocks⟩ | ⟨data, image, -, -, hblocks⟩
      · simp [hblocks] at hnew
      · simp [hblocks] at hnew
      · obtain ⟨rfl, rfl⟩ : i = r.1 ∧ m = _ := by simpa [hblocks] using hnew
        exact Option.some_ne_none image

theorem dequeued_counted (hs : Counted foundation s) (block : ℕ) :
    Counted foundation { s with main := s.main.eraseIdx block } :=
  counted_of_same hs rfl rfl rfl (fun _ => rfl)
    (fun avatars hmem => hs.listed avatars (List.mem_of_mem_eraseIdx hmem))
    (fun i m hmem => hs.shown i m (List.mem_of_mem_eraseIdx hmem))

/-- While the list has not come there is nothing to count. -/
theorem requested_of_empty (hslots : Slots kit s) (hs : Counted foundation s)
    (hempty : s.images = []) (url : String) : requested url s = 0 := by
  have hlinks : s.links = [] := by rw [← hslots.urls, hempty, List.map_nil]
  cases hrequest : imageRequest foundation url with
  | none => exact hs.refused url hrequest
  | some request =>
    have hmade := hs.made url (by rw [hrequest]; rfl)
    rw [hlinks, List.count_nil] at hmade
    omega

theorem countP_listed {avatars : List (AvatarViewModel Image)}
    (h : ∀ a ∈ avatars, idle a = true) (url : String) :
    (avatars.countP fun model => idle model && decide (model.url = url)) =
      (avatars.map AvatarViewModel.url).count url := by
  rw [List.count, List.countP_map]
  refine List.countP_congr fun a ha => ?_
  simp [h a ha]

theorem run_counted (hslots : Slots kit s) (hs : Counted foundation s) {block : ℕ}
    {b : Block Image} (hb : s.main[block]? = some b) :
    Counted foundation (b.run { s with main := s.main.eraseIdx block }) := by
  have hrest := dequeued_counted hs block
  have hmem := List.mem_of_getElem? hb
  cases b with
  | stopAnimating => exact hrest
  | showErrorAlert error => exact hrest
  | update avatars =>
    have hpending : 0 < pendingLists s :=
      Nat.add_pos_right _ (List.countP_pos_iff.mpr ⟨_, hmem, rfl⟩)
    have hempty := hslots.awaiting hpending
    have hnone := requested_of_empty hslots hs hempty
    have hwrites := writes_of_empty hslots hempty
    exact {
      listed := hrest.listed
      shown := hrest.shown
      made := fun url _ => by
        have hlisted := countP_listed (hs.listed avatars hmem) url
        exact (congrArg₂ (· + ·) (hnone url) hlisted).trans (Nat.zero_add _)
      refused := fun url _ => hnone url
      written := fun i => by
        have hfresh : writesAt i s = [] := by rw [writesAt, hwrites, List.filter_nil]
        refine hfresh.trans ?_
        cases ha : avatars[i]? with
        | none => simp [Block.run, ha]
        | some a =>
          have hidle := hs.listed avatars hmem a (List.mem_of_getElem? ha)
          simp [Block.run, ha, history, idle_iff.mp hidle] }
  | updateCell index model =>
    have hcarried : (index, model) ∈ carried s :=
      List.mem_append_right _ (List.mem_filterMap.mpr ⟨_, hmem, rfl⟩)
    obtain ⟨a, ha, hnone, hfetching⟩ := hslots.carried_fetching _ hcarried
    have himage := hs.shown index model hmem
    have hurl : model.url = a.url := by
      have hlink := (hslots.carried_fits _ hcarried).url
      rw [← hslots.urls, List.getElem?_map, ha] at hlink
      exact (Option.some.inj hlink).symm
    have hshown : idle model = false := by simp [idle, himage]
    have hbusy : idle a = false := by simp [idle, hfetching]
    exact {
      listed := hrest.listed
      shown := hrest.shown
      made := fun url hrequest => by
        have hsame := unfetched_write (s := { s with main := s.main.eraseIdx block }) ha hshown url
        rw [if_neg fun h => Bool.false_ne_true (hbusy.symm.trans h.1)] at hsame
        exact (congrArg _ hsame).trans (hs.made url hrequest)
      refused := hs.refused
      written := writesAt_write hrest.written ha
        (history_image index hnone hfetching hurl himage) }

theorem step_counted {e : Event} (hslots : Slots kit s) (hs : Counted foundation s)
    (h : step foundation kit s e = some t) : Counted foundation t := by
  rcases step_cases h with ⟨completion, -, -, rfl⟩ |
    ⟨item, a, -, ha, ⟨himage, hidle, rfl⟩ | ⟨-, rfl⟩⟩ | ⟨request, completion, r, -, hr, rfl⟩ |
    ⟨block, b, -, hb, rfl⟩
  · exact listEnded_counted hs _
  · exact fetchImage_counted hs ha (idle_iff.mpr ⟨himage, hidle⟩)
  · exact hs
  · exact imageEnded_counted hs hr completion
  · exact run_counted hslots hs hb

theorem viewDidLoad_counted (foundation : Foundation URL) (apiKey : String) :
    Counted foundation (viewDidLoad foundation apiKey : Picker Image) := by
  unfold viewDidLoad
  cases send (imageListRequest foundation apiKey) with
  | none => constructor <;> simp [requested, unfetched, writesAt]
  | some error => constructor <;> simp [requested, unfetched, writesAt]

theorem reachable_counted {apiKey : String} {es : List Event}
    (h : run (step foundation kit) (viewDidLoad foundation apiKey) es = some s) :
    Slots kit s ∧ Counted foundation s := by
  have hstep : ∀ (s : Picker Image) e t, Slots kit s ∧ Counted foundation s →
      step foundation kit s e = some t → Slots kit t ∧ Counted foundation t := by
    rintro s e t ⟨hslots, hs⟩ h
    exact ⟨step_slots hslots h, step_counted hslots hs h⟩
  exact run_invariant hstep
    ⟨viewDidLoad_slots foundation kit apiKey, viewDidLoad_counted foundation apiKey⟩ h

theorem unfetched_eq_zero_iff (url : String) (s : Picker Image) :
    unfetched url s = 0 ↔ ∀ a ∈ s.images, a.url = url → idle a = false := by
  rw [unfetched, List.countP_eq_zero]
  simp only [Bool.and_eq_true, decide_eq_true_eq, not_and]
  refine forall₂_congr fun a _ => ?_
  cases idle a <;> simp

/-- No url is asked for more often than there are links to it, and as often as that once
every item of the url was shown; what was written to an item can be read off it. -/
theorem fetched_once (foundation : Foundation URL) (kit : UIKit Image) (apiKey : String)
    {es : List Event} {s : Picker Image}
    (h : run (step foundation kit) (viewDidLoad foundation apiKey) es = some s) :
    (∀ url, requested url s ≤ s.links.count url ∧
      ((imageRequest foundation url).isSome → (requested url s = s.links.count url ↔
        ∀ a ∈ s.images, a.url = url → idle a = false))) ∧
    ∀ index, writesAt index s = (s.images[index]?.map (history index)).getD [] := by
  obtain ⟨-, hs⟩ := reachable_counted h
  refine ⟨fun url => ⟨?_, fun hrequest => ?_⟩, hs.written⟩
  · cases hrequest : imageRequest foundation url with
    | none =>
      rw [hs.refused url hrequest]
      exact Nat.zero_le _
    | some request =>
      have hmade := hs.made url (by rw [hrequest]; rfl)
      omega
  · have hmade := hs.made url hrequest
    rw [← unfetched_eq_zero_iff]
    omega

theorem fetched_once_bothFetched :
    ∃ s, run (step twoHits plainKit) (viewDidLoad twoHits "key") bothFetched = some s ∧
      requested "second" s = s.links.count "second" := by
  obtain ⟨s, hrun⟩ :
      ∃ s, run (step twoHits plainKit) (viewDidLoad twoHits "key") bothFetched = some s := ⟨_, rfl⟩
  have hrequest : (imageRequest twoHits "second").isSome := rfl
  refine ⟨s, hrun, (((fetched_once twoHits plainKit "key" hrun).1 "second").2 hrequest).mpr ?_⟩
  obtain rfl := Option.some.inj hrun
  decide

theorem image_kept {fs : List Event} (hs : Slots kit s) {a : AvatarViewModel Image}
    (ha : s.images[index]? = some a) (himage : a.image ≠ none)
    (ht : run (step foundation kit) s fs = some t) : t.images[index]? = some a := by
  have hstep : ∀ (u : Picker Image) e v, Slots kit u ∧ u.images[index]? = some a →
      step foundation kit u e = some v → Slots kit v ∧ v.images[index]? = some a := by
    rintro u e v ⟨hu, ha⟩ h
    exact ⟨step_slots hu h, step_image hu h ha himage⟩
  exact (run_invariant hstep ⟨hs, ha⟩ ht).2

/-- A picture that can be selected came in a response to the link of its item, is the second
and last thing written to the item, and can be selected from then on. -/
theorem didSelectItemAt_kept (foundation : Foundation URL) (kit : UIKit Image) (apiKey : String)
    {es fs : List Event} {s t : Picker Image} {item : ℕ} {image : Image}
    (h : run (step foundation kit) (viewDidLoad foundation apiKey) es = some s)
    (hselect : didSelectItemAt item s = some image) (ht : run (step foundation kit) s fs = some t) :
    didSelectItemAt item t = some image ∧ ∃ a completion data, a.image = some image ∧
      s.links[item]? = some a.url ∧ (a.url, completion) ∈ s.responses ∧
        completion.Delivers data ∧ kit.image data = some image ∧
          writesAt item t = [(item, marked a), (item, a)] := by
  obtain ⟨hslots, hs⟩ := reachable_counted h
  obtain ⟨a, ha, himage⟩ := Option.bind_eq_some_iff.mp hselect
  have hsome : a.image ≠ none := by rw [himage]; exact Option.some_ne_none image
  have hlater : t.images[item]? = some a := image_kept hslots ha hsome ht
  have htwice {u : Picker Image} (hu : Counted foundation u) (hitem : u.images[item]? = some a) :
      writesAt item u = [(item, marked a), (item, a)] := by
    rw [hu.written, hitem, Option.map_some, Option.getD_some, history, himage]
  refine ⟨Option.bind_eq_some_iff.mpr ⟨a, hlater, himage⟩, a, ?_⟩
  have hwritten : (item, a) ∈ s.writes := by
    have hmem : (item, a) ∈ writesAt item s := by simp [htwice hs ha]
    exact List.mem_of_mem_filter hmem
  have hfits := hslots.writes_fit _ hwritten
  obtain ⟨completion, data, hresponse, hload, hdecode⟩ := hfits.decoded image himage
  have hrun : run (step foundation kit) (viewDidLoad foundation apiKey) (es ++ fs) = some t := by
    rwa [run_append_of_run h]
  exact ⟨completion, data, himage, hfits.url, hresponse, loadImage_eq_ok_iff.mp hload, hdecode,
    htwice (reachable_counted hrun).2 hlater⟩

theorem didSelectItemAt_kept_bothFetched :
    ∃ s, run (step twoHits plainKit) (viewDidLoad twoHits "key") (bothFetched.take 8) = some s ∧
      ∃ t, run (step twoHits plainKit) s (bothFetched.drop 8) = some t ∧
        didSelectItemAt 1 s = didSelectItemAt 1 t := by
  obtain ⟨s, hs⟩ : ∃ s, run (step twoHits plainKit) (viewDidLoad twoHits "key")
      (bothFetched.take 8) = some s := ⟨_, rfl⟩
  obtain ⟨t, ht⟩ : ∃ t, run (step twoHits plainKit) s (bothFetched.drop 8) = some t := by
    obtain rfl := Option.some.inj hs
    exact ⟨_, rfl⟩
  obtain ⟨image, himage⟩ : ∃ image, didSelectItemAt 1 s = some image := by
    obtain rfl := Option.some.inj hs
    exact ⟨_, rfl⟩
  have hkept := didSelectItemAt_kept twoHits plainKit "key" hs himage ht
  exact ⟨s, hs, t, ht, himage.trans hkept.1.symm⟩

end TinkoffChat.ImageFetches

import TinkoffChat.AvatarService
import TinkoffChat.PartialRuns
import Mathlib.Data.List.Nodup
import Mathlib.Data.List.Perm.Basic

/-!
The picker of an avatar from the network. A cell that is shown without an image
fetches it; the request carries its index and a copy of its item until it ends,
and an image that came is written back by a block of the main queue. An item
whose index is carried is marked as fetching, so no index is carried twice.
-/
namespace TinkoffChat.ImagePicker

open PartialRuns ProfileFiles AvatarService

variable {Image URL : Type*}

structure AvatarViewModel (Image : Type*) where
  image : Option Image
  url : String
  isFetching : Bool

/-- What the callbacks put on the main queue. -/
inductive Block (Image : Type*)
  | stopAnimating
  | update (avatars : List (AvatarViewModel Image))
  | updateCell (index : ℕ) (model : AvatarViewModel Image)
  | showErrorAlert (error : NetworkError)

/-- The items, how many the collection view knows of, the requests under way and the main
queue. The last three fields record the urls that the items came with, the writes to
single items, and how the requests for images ended. -/
structure Picker (Image : Type*) where
  images : List (AvatarViewModel Image)
  numberOfItems : ℕ
  listRequest : Bool
  imageRequests : List (ℕ × AvatarViewModel Image)
  main : List (Block Image)
  links : List String
  writes : List (ℕ × AvatarViewModel Image)
  responses : List (String × Completion)

/-- `images[index] = model` -/
def write (index : ℕ) (model : AvatarViewModel Image) (s : Picker Image) : Picker Image :=
  { s with images := s.images.set index model, writes := s.writes ++ [(index, model)] }

/-- The list is asked for as soon as the view has loaded. -/
def viewDidLoad (foundation : Foundation URL) (apiKey : String) : Picker Image :=
  match send (imageListRequest foundation apiKey) with
  | some error => ⟨[], 0, false, [], [.stopAnimating, .showErrorAlert error], [], [], []⟩
  | none => ⟨[], 0, true, [], [], [], [], []⟩

/-- What the handler of loadAvatarList puts on the main queue. -/
def listBlocks : Except NetworkError (List String) → List (Block Image)
  | .ok imageLinkList =>
    [.stopAnimating, .update (imageLinkList.map fun url => ⟨none, url, false⟩)]
  | .error error => [.stopAnimating, .showErrorAlert error]

def fetchImage (foundation : Foundation URL) (index : ℕ) (model : AvatarViewModel Image)
    (s : Picker Image) : Picker Image :=
  let copyModel := { model with isFetching := true }
  let fetching := write index copyModel s
  match send (imageRequest foundation copyModel.url) with
  | some error => { fetching with main := fetching.main ++ [.showErrorAlert error] }
  | none => { fetching with imageRequests := fetching.imageRequests ++ [(index, copyModel)] }

/-- What the handler of fetchImage puts on the main queue. -/
def imageBlocks (kit : UIKit Image) (index : ℕ) (copyModel : AvatarViewModel Image) :
    Except NetworkError Data → List (Block Image)
  | .ok imageData =>
    match kit.image imageData with
    | none => []
    | some image => [.updateCell index { copyModel with isFetching := false, image := some image }]
  | .error error => [.showErrorAlert error]

/-- The items are assigned and the collection view reloads, or one item and its cell do. -/
def Block.run : Block Image → Picker Image → Picker Image
  | .stopAnimating, s => s
  | .update avatars, s => { s with
      images := avatars
      numberOfItems := avatars.length
      links := avatars.map AvatarViewModel.url }
  | .updateCell index model, s => write index model s
  | .showErrorAlert _, s => s

/-- Requests and blocks are named by their places, and may end and run in any order. -/
inductive Event
  | listEnded (completion : Completion)
  | cellForItemAt (item : ℕ)
  | imageEnded (request : ℕ) (completion : Completion)
  | main (block : ℕ)

def cellForItemAt (foundation : Foundation URL) (item : ℕ) (imageModel : AvatarViewModel Image)
    (s : Picker Image) : Picker Image :=
  if imageModel.image.isNone ∧ imageModel.isFetching = false then
    fetchImage foundation item imageModel s
  else s

def step (foundation : Foundation URL) (kit : UIKit Image) (s : Picker Image) :
    Event → Option (Picker Image)
  | .listEnded completion =>
    if s.listRequest then
      some { s with
        listRequest := false
        main := s.main ++ (loadImageList foundation completion).elim [] listBlocks }
    else none
  | .cellForItemAt item =>
    if item < s.numberOfItems then
      s.images[item]?.map fun imageModel => cellForItemAt foundation item imageModel s
    else none
  | .imageEnded request completion => s.imageRequests[request]?.map fun r =>
      { s with
        imageRequests := s.imageRequests.eraseIdx request
        main := s.main ++ (loadImage completion).elim [] (imageBlocks kit r.1 r.2)
        responses := s.responses ++ [(r.2.url, completion)] }
  | .main block => s.main[block]?.map fun b => b.run { s with main := s.main.eraseIdx block }

def Block.updated : Block Image → Option (ℕ × AvatarViewModel Image)
  | .updateCell index model => some (index, model)
  | _ => none

def Block.isUpdate : Block Image → Bool
  | .update _ => true
  | _ => false

/-- The indices and items carried by requests, and by what is to be written back of them. -/
def carried (s : Picker Image) : List (ℕ × AvatarViewModel Image) :=
  s.imageRequests ++ s.main.filterMap Block.updated

/-- The item has the url of the slot, and no image but a decoded response to that url. -/
structure Fits (kit : UIKit Image) (s : Picker Image) (index : ℕ)
    (model : AvatarViewModel Image) : Prop where
  url : s.links[index]? = some model.url
  decoded : ∀ image, model.image = some image → ∃ completion data,
    (model.url, completion) ∈ s.responses ∧ loadImage completion = some (.ok data) ∧
      kit.image data = some image

/-- The list while it has not become the items: requested, or on the main queue. -/
def pendingLists (s : Picker Image) : ℕ :=
  (if s.listRequest then 1 else 0) + s.main.countP Block.isUpdate

/-- Cells are shown and items written within the items, each in the slot of its url and with
the image of a response to that url, and no slot has two requests under way. -/
structure InSlots (kit : UIKit Image) (s : Picker Image) : Prop where
  shown : s.numberOfItems = s.images.length
  written : ∀ w ∈ s.writes, w.1 < s.images.length ∧ Fits kit s w.1 w.2
  urls : s.images.map AvatarViewModel.url = s.links
  requests_nodup : (s.imageRequests.map Prod.fst).Nodup

structure Slots (kit : UIKit Image) (s : Picker Image) : Prop where
  urls : s.images.map AvatarViewModel.url = s.links
  numberOfItems_eq : s.numberOfItems = s.images.length
  once : pendingLists s ≤ 1
  awaiting : 0 < pendingLists s → s.images = []
  fresh : ∀ avatars, .update avatars ∈ s.main → ∀ a ∈ avatars, a.isFetching = false
  carried_nodup : ((carried s).map Prod.fst).Nodup
  carried_fetching : ∀ w ∈ carried s, ∃ a, s.images[w.1]? = some a ∧ a.image = none ∧
    a.isFetching = true
  carried_fits : ∀ w ∈ carried s, Fits kit s w.1 w.2
  updated : ∀ index model, .updateCell index model ∈ s.main → model.isFetching = false
  writes_fit : ∀ w ∈ s.writes, Fits kit s w.1 w.2

variable {foundation : Foundation URL} {kit : UIKit Image} {s t : Picker Image} {index : ℕ}
  {model : AvatarViewModel Image}

theorem fits_mono (hlinks : t.links = s.links) (hresponses : s.responses ⊆ t.responses)
    (h : Fits kit s index model) : Fits kit t index model := by
  refine ⟨hlinks ▸ h.url, fun image himage => ?_⟩
  obtain ⟨completion, data, hmem, hload, hdecode⟩ := h.decoded image himage
  exact ⟨completion, data, hresponses hmem, hload, hdecode⟩

theorem fetchImage_refused {error : NetworkError}
    (h : send (imageRequest foundation model.url) = some error) :
    fetchImage foundation index model s =
      { write index { model with isFetching := true } s with
        main := s.main ++ [.showErrorAlert error] } := by
  simp only [fetchImage, h]
  rfl

theorem fetchImage_sent (h : send (imageRequest foundation model.url) = none) :
    fetchImage foundation index model s =
      { write index { model with isFetching := true } s with
        imageRequests := s.imageRequests ++ [(index, { model with isFetching := true })] } := by
  simp only [fetchImage, h]
  rfl

/-- The item is marked whether or not a request can be made for it. -/
theorem fetchImage_images (foundation : Foundation URL) (index : ℕ) (model : AvatarViewModel Image)
    (s : Picker Image) : (fetchImage foundation index model s).images =
      s.images.set index { model with isFetching := true } := by
  cases hsend : send (imageRequest foundation model.url) with
  | some error => rw [fetchImage_refused hsend]; rfl
  | none => rw [fetchImage_sent hsend]; rfl

theorem carried_main (s : Picker Image) (blocks : List (Block Image)) :
    carried { s with main := s.main ++ blocks } = carried s ++ blocks.filterMap Block.updated := by
  rw [carried, List.filterMap_append, carried, List.append_assoc]

theorem carried_alert (s : Picker Image) (error : NetworkError) :
    carried { s with main := s.main ++ [.showErrorAlert error] } = carried s :=
  (carried_main s _).trans (List.append_nil _)

theorem carried_request (s : Picker Image) (r : ℕ × AvatarViewModel Image) :
    (carried { s with imageRequests := s.imageRequests ++ [r] }).Perm (r :: carried s) := by
  rw [carried, List.append_assoc, List.singleton_append]
  exact List.perm_middle

/-- A request that has ended is no longer carried. -/
theorem carried_ended {request : ℕ} {r : ℕ × AvatarViewModel Image}
    (hr : s.imageRequests[request]? = some r) :
    (carried s).Perm
      (r :: carried { s with imageRequests := s.imageRequests.eraseIdx request }) :=
  (cons_eraseIdx_perm hr).symm.append_right _

/-- What a block on the main queue carries is carried until it leaves it. -/
theorem carried_dequeued {block : ℕ} {b : Block Image} (hb : s.main[block]? = some b) :
    (carried s).Perm
      (b.updated.toList ++ carried { s with main := s.main.eraseIdx block }) := by
  have hmain := (cons_eraseIdx_perm hb).symm.filterMap Block.updated
  refine (hmain.append_left _).trans ?_
  cases hupdated : b.updated with
  | none => rw [List.filterMap_cons_none hupdated]; exact List.Perm.refl _
  | some w => rw [List.filterMap_cons_some hupdated]; exact List.perm_middle

theorem viewDidLoad_slots (foundation : Foundation URL) (kit : UIKit Image) (apiKey : String) :
    Slots kit (viewDidLoad foundation apiKey) := by
  unfold viewDidLoad
  cases send (imageListRequest foundation apiKey) with
  | none => constructor <;> simp [pendingLists, carried]
  | some error =>
    constructor <;>
      simp [pendingLists, carried, Block.isUpdate, List.filterMap_cons, Block.updated]

/-- A step that leaves the items alone keeps to the slots if what it carries does. -/
theorem slots_of_same (hs : Slots kit s) (himages : t.images = s.images)
    (hitems : t.numberOfItems = s.numberOfItems) (hlinks : t.links = s.links)
    (hwrites : t.writes = s.writes) (hresponses : s.responses ⊆ t.responses)
    (hpending : pendingLists t ≤ pendingLists s)
    (hfresh : ∀ avatars, .update avatars ∈ t.main → ∀ a ∈ avatars, a.isFetching = false)
    (hnodup : ((carried t).map Prod.fst).Nodup)
    (hcarried : ∀ w ∈ carried t, (∃ a, s.images[w.1]? = some a ∧ a.image = none ∧
      a.isFetching = true) ∧ Fits kit t w.1 w.2)
    (hupdated : ∀ index model, .updateCell index model ∈ t.main → model.isFetching = false) :
    Slots kit t where
  urls := by rw [himages, hlinks, hs.urls]
  numberOfItems_eq := by rw [himages, hitems, hs.numberOfItems_eq]
  once := Nat.le_trans hpending hs.once
  awaiting h := himages.trans (hs.awaiting (Nat.lt_of_lt_of_le h hpending))
  fresh := hfresh
  carried_nodup := hnodup
  carried_fetching w hw := himages ▸ (hcarried w hw).1
  carried_fits w hw := (hcarried w hw).2
  updated := hupdated
  writes_fit w hw := fits_mono hlinks hresponses (hs.writes_fit w (hwrites ▸ hw))

/-- An item may be written to a slot whose index is not carried. -/
theorem write_slots (hs : Slots kit s) (hfits : Fits kit s index model)
    (hfree : index ∉ (carried s).map Prod.fst) : Slots kit (write index model s) where
  urls := by
    have hset : (s.images.set index model).map AvatarViewModel.url = s.links := by
      rw [List.map_set, hs.urls]
      obtain ⟨hlt, hurl⟩ := List.getElem?_eq_some_iff.mp hfits.url
      rw [← hurl, List.set_getElem_self]
    exact hset
  numberOfItems_eq := hs.numberOfItems_eq.trans List.length_set.symm
  once := hs.once
  awaiting h := by
    rw [write, hs.awaiting h, List.set_nil]
  fresh := hs.fresh
  carried_nodup := hs.carried_nodup
  carried_fetching w hw := by
    have hne : index ≠ w.1 := by
      rintro rfl
      exact hfree (List.mem_map_of_mem hw)
    rw [write, List.getElem?_set_ne hne]
    exact hs.carried_fetching w hw
  carried_fits w hw := fits_mono (s := s) rfl (fun _ h => h) (hs.carried_fits w hw)
  updated := hs.updated
  writes_fit w hw := by
    refine fits_mono (s := s) rfl (fun _ h => h) ?_
    rcases List.mem_append.mp hw with hold | hnew
    · exact hs.writes_fit w hold
    · obtain rfl := List.mem_singleton.mp hnew
      exact hfits

theorem listBlocks_updated (result : Option (Except NetworkError (List String))) :
    (result.elim [] listBlocks : List (Block Image)).filterMap Block.updated = [] := by
  cases result with
  | none => rfl
  | some result => cases result <;> rfl

theorem carried_listEnded (s : Picker Image) (result : Option (Except NetworkError (List String))) :
    carried { s with listRequest := false, main := s.main ++ result.elim [] listBlocks } =
      carried s := by
  rw [carried_main { s with listRequest := false }, listBlocks_updated, List.append_nil]
  rfl

theorem listEnded_slots (hs : Slots kit s) (hrequest : s.listRequest = true)
    (result : Option (Except NetworkError (List String))) :
    Slots kit { s with listRequest := false, main := s.main ++ result.elim [] listBlocks } := by
  have hcount : (result.elim [] listBlocks : List (Block Image)).countP Block.isUpdate ≤ 1 := by
    cases result with
    | none => exact Nat.zero_le 1
    | some result =>
      cases result with
      | ok links => exact Nat.le_refl 1
      | error error => exact Nat.zero_le 1
  have hsame := carried_listEnded s result
  refine slots_of_same hs rfl rfl rfl rfl (fun _ h => h) ?_ ?_ ?_ ?_ ?_
  · simp only [pendingLists, hrequest, List.countP_append]
    simp only [if_true, Bool.false_eq_true, if_false]
    omega
  · intro avatars hmem a ha
    rcases List.mem_append.mp hmem with hold | hnew
    · exact hs.fresh avatars hold a ha
    · cases result with
      | none => cases hnew
      | some result =>
        cases result with
        | error error => simp [listBlocks] at hnew
        | ok links =>
          obtain rfl : avatars = links.map fun url => ⟨none, url, false⟩ := by
            simpa [listBlocks] using hnew
          obtain ⟨url, -, rfl⟩ := List.mem_map.mp ha
          rfl
  · rw [hsame]
    exact hs.carried_nodup
  · rw [hsame]
    exact fun w hw => ⟨hs.carried_fetching w hw,
      fits_mono (s := s) rfl (fun _ h => h) (hs.carried_fits w hw)⟩
  · intro i m hmem
    rcases List.mem_append.mp hmem with hold | hnew
    · exact hs.updated i m hold
    · have hupdated : (i, m) ∈ (result.elim [] listBlocks).filterMap Block.updated :=
        List.mem_filterMap.mpr ⟨_, hnew, rfl⟩
      rw [listBlocks_updated] at hupdated
      cases hupdated

theorem not_carried (hs : Slots kit s) {a : AvatarViewModel Image}
    (ha : s.images[index]? = some a) (hidle : a.isFetching = false) :
    index ∉ (carried s).map Prod.fst := by
  intro hmem
  obtain ⟨w, hw, rfl⟩ := List.mem_map.mp hmem
  obtain ⟨b, hb, -, hfetching⟩ := hs.carried_fetching w hw
  obtain rfl := Option.some.inj (ha.symm.trans hb)
  exact Bool.false_ne_true (hidle.symm.trans hfetching)

theorem fits_of_item (hs : Slots kit s) {a : AvatarViewModel Image}
    (ha : s.images[index]? = some a) (hurl : model.url = a.url) (himage : model.image = none) :
    Fits kit s index model := by
  refine ⟨?_, fun image h => ?_⟩
  · rw [← hs.urls, List.getElem?_map, ha, Option.map_some, hurl]
  · rw [himage] at h
    cases h

theorem alert_slots (hs : Slots kit s) (error : NetworkError) :
    Slots kit { s with main := s.main ++ [.showErrorAlert error] } := by
  have hsame := carried_alert s error
  refine slots_of_same hs rfl rfl rfl rfl (fun _ h => h) ?_ ?_ ?_ ?_ ?_
  · rw [pendingLists, List.countP_append]
    exact Nat.le_refl _
  · intro avatars hmem
    exact hs.fresh avatars (by simpa using hmem)
  · exact hsame ▸ hs.carried_nodup
  · intro w hw
    rw [hsame] at hw
    exact ⟨hs.carried_fetching w hw,
      fits_mono (s := s) rfl (fun _ h => h) (hs.carried_fits w hw)⟩
  · intro i m hmem
    exact hs.updated i m (by simpa using hmem)

/-- A request may be made for an item that is marked as fetching and was not carried. -/
theorem request_slots (hs : Slots kit s) {a : AvatarViewModel Image}
    (ha : s.images[index]? = some a) (himage : a.image = none) (hfetching : a.isFetching = true)
    (hfree : index ∉ (carried s).map Prod.fst) :
    Slots kit { s with imageRequests := s.imageRequests ++ [(index, a)] } := by
  have hperm := carried_request s (index, a)
  refine slots_of_same hs rfl rfl rfl rfl (fun _ h => h) (Nat.le_refl _) hs.fresh ?_ ?_ hs.updated
  · rw [(hperm.map Prod.fst).nodup_iff]
    exact List.nodup_cons.mpr ⟨hfree, hs.carried_nodup⟩
  · intro w hw
    rcases List.mem_cons.mp (hperm.mem_iff.mp hw) with rfl | hold
    · exact ⟨⟨a, ha, himage, hfetching⟩,
        fits_mono (s := s) rfl (fun _ h => h) (fits_of_item hs ha rfl himage)⟩
    · exact ⟨hs.carried_fetching w hold,
        fits_mono (s := s) rfl (fun _ h => h) (hs.carried_fits w hold)⟩

theorem fetchImage_slots (hs : Slots kit s) {a : AvatarViewModel Image}
    (ha : s.images[index]? = some a) (himage : a.image = none) (hidle : a.isFetching = false) :
    Slots kit (fetchImage foundation index a s) := by
  have hfree := not_carried hs ha hidle
  have hwrite : Slots kit (write index { a with isFetching := true } s) :=
    write_slots hs (fits_of_item hs ha rfl himage) hfree
  cases hsend : send (imageRequest foundation a.url) with
  | some error =>
    rw [fetchImage_refused hsend]
    exact alert_slots hwrite error
  | none =>
    rw [fetchImage_sent hsend]
    have hlt := (List.getElem?_eq_some_iff.mp ha).1
    exact request_slots hwrite (List.getElem?_set_self hlt) himage rfl hfree

/-- An item that has been fetched may be put on the main queue. -/
theorem updateCell_slots (hs : Slots kit s) {a : AvatarViewModel Image}
    (ha : s.images[index]? = some a) (himage : a.image = none) (hfetching : a.isFetching = true)
    (hfree : index ∉ (carried s).map Prod.fst) (hfits : Fits kit s index model)
    (hidle : model.isFetching = false) :
    Slots kit { s with main := s.main ++ [.updateCell index model] } := by
  have hsame : carried { s with main := s.main ++ [.updateCell index model] } =
      carried s ++ [(index, model)] := carried_main s _
  refine slots_of_same hs rfl rfl rfl rfl (fun _ h => h) ?_ ?_ ?_ ?_ ?_
  · rw [pendingLists, List.countP_append]
    exact Nat.le_refl _
  · intro avatars hmem
    exact hs.fresh avatars (by simpa using hmem)
  · rw [hsame, List.map_append, List.map_singleton, ← List.concat_eq_append, List.nodup_concat]
    exact ⟨hfree, hs.carried_nodup⟩
  · intro w hw
    rw [hsame, List.mem_append, List.mem_singleton] at hw
    rcases hw with hold | rfl
    · exact ⟨hs.carried_fetching w hold,
        fits_mono (s := s) rfl (fun _ h => h) (hs.carried_fits w hold)⟩
    · exact ⟨⟨a, ha, himage, hfetching⟩, fits_mono (s := s) rfl (fun _ h => h) hfits⟩
  · intro i m hmem
    rcases List.mem_append.mp hmem with hold | hnew
    · exact hs.updated i m hold
    · obtain ⟨rfl, rfl⟩ := Block.updateCell.inj (List.mem_singleton.mp hnew)
      exact hidle

theorem imageBlocks_cases (kit : UIKit Image) (index : ℕ) (model : AvatarViewModel Image)
    (result : Option (Except NetworkError Data)) :
    result.elim [] (imageBlocks kit index model) = [] ∨
      (∃ error, result.elim [] (imageBlocks kit index model) = [.showErrorAlert error]) ∨
      ∃ data image, result = some (.ok data) ∧ kit.image data = some image ∧
        result.elim [] (imageBlocks kit index model) =
          [.updateCell index { model with isFetching := false, image := some image }] := by
  cases result with
  | none => exact Or.inl rfl
  | some result =>
    cases result with
    | error error => exact Or.inr (Or.inl ⟨error, rfl⟩)
    | ok data =>
      cases himage : kit.image data with
      | none => exact Or.inl (by simp [imageBlocks, himage])
      | some image =>
        exact Or.inr (Or.inr ⟨data, image, rfl, himage, by simp [imageBlocks, himage]⟩)

/-- What is left once a request has ended, before its handler is called. -/
theorem ended_slots (hs : Slots kit s) {request : ℕ} {r : ℕ × AvatarViewModel Image}
    (hr : s.imageRequests[request]? = some r) (responses : List (String × Completion)) :
    Slots kit { s with
      imageRequests := s.imageRequests.eraseIdx request
      responses := s.responses ++ responses } ∧
    r.1 ∉ (carried { s with imageRequests := s.imageRequests.eraseIdx request }).map Prod.fst := by
  have hperm := (carried_ended hr).symm
  obtain ⟨hout, hrest⟩ := List.nodup_cons.mp ((hperm.map Prod.fst).nodup_iff.mpr hs.carried_nodup)
  refine ⟨slots_of_same hs rfl rfl rfl rfl (List.subset_append_left _ _) (Nat.le_refl _) hs.fresh
    hrest (fun w hw => ?_) hs.updated, hout⟩
  have hold := hperm.mem_iff.mp (List.mem_cons_of_mem r hw)
  exact ⟨hs.carried_fetching w hold,
    fits_mono (s := s) rfl (List.subset_append_left _ _) (hs.carried_fits w hold)⟩

theorem imageEnded_slots (hs : Slots kit s) {request : ℕ} {r : ℕ × AvatarViewModel Image}
    (hr : s.imageRequests[request]? = some r) (completion : Completion) :
    Slots kit { s with
      imageRequests := s.imageRequests.eraseIdx request
      main := s.main ++ (loadImage completion).elim [] (imageBlocks kit r.1 r.2)
      responses := s.responses ++ [(r.2.url, completion)] } := by
  obtain ⟨hended, hfree⟩ := ended_slots hs hr [(r.2.url, completion)]
  rcases imageBlocks_cases kit r.1 r.2 (loadImage completion) with
    hblocks | ⟨error, hblocks⟩ | ⟨data, image, hload, himage, hblocks⟩
  · rw [hblocks, List.append_nil]
    exact hended
  · rw [hblocks]
    exact alert_slots hended error
  · have hmem : r ∈ carried s := List.mem_append_left _ (List.mem_of_getElem? hr)
    obtain ⟨a, ha, hnone, hfetching⟩ := hs.carried_fetching r hmem
    rw [hblocks]
    refine updateCell_slots hended ha hnone hfetching hfree ⟨(hs.carried_fits r hmem).url, ?_⟩ rfl
    intro shown hshown
    obtain rfl : image = shown := Option.some.inj hshown
    exact ⟨completion, data, List.mem_append_right _ (List.mem_singleton_self _), hload, himage⟩

/-- A block leaves the main queue when it is run. -/
theorem dequeued_slots (hs : Slots kit s) (block : ℕ) :
    Slots kit { s with main := s.main.eraseIdx block } := by
  have hsub : (s.main.eraseIdx block).Sublist s.main := List.eraseIdx_sublist _ _
  have hcarried : (carried { s with main := s.main.eraseIdx block }).Sublist (carried s) :=
    (hsub.filterMap _).append_left _
  refine slots_of_same hs rfl rfl rfl rfl (fun _ h => h) ?_ ?_ ?_ ?_ ?_
  · exact Nat.add_le_add_left (hsub.countP_le) _
  · exact fun avatars hmem => hs.fresh avatars (hsub.subset hmem)
  · exact hs.carried_nodup.sublist (hcarried.map _)
  · exact fun w hw => ⟨hs.carried_fetching w (hcarried.subset hw),
      fits_mono (s := s) rfl (fun _ h => h) (hs.carried_fits w (hcarried.subset hw))⟩
  · exact fun i m hmem => hs.updated i m (hsub.subset hmem)

theorem carried_of_empty (hs : Slots kit s) (hempty : s.images = []) : carried s = [] := by
  apply List.eq_nil_iff_forall_not_mem.mpr
  intro w hw
  obtain ⟨a, ha, -⟩ := hs.carried_fetching w hw
  rw [hempty] at ha
  cases ha

theorem writes_of_empty (hs : Slots kit s) (hempty : s.images = []) : s.writes = [] := by
  apply List.eq_nil_iff_forall_not_mem.mpr
  intro w hw
  have hurl := (hs.writes_fit w hw).url
  rw [← hs.urls, hempty] at hurl
  cases hurl

/-- The list becomes the items once, while there is none. -/
theorem update_slots (hs : Slots kit s) {block : ℕ} {avatars : List (AvatarViewModel Image)}
    (hb : s.main[block]? = some (.update avatars)) :
    Slots kit ((Block.update avatars).run { s with main := s.main.eraseIdx block }) := by
  have hmem := List.mem_of_getElem? hb
  have hrest := dequeued_slots hs block
  have hpending : pendingLists { s with main := s.main.eraseIdx block } + 1 = pendingLists s := by
    rw [pendingLists, pendingLists, ← (cons_eraseIdx_perm hb).countP_eq,
      List.countP_cons_of_pos rfl, Nat.add_assoc]
  have honce := hs.once
  have hempty : s.images = [] := hs.awaiting (by omega)
  have hcarried : carried { s with main := s.main.eraseIdx block } = [] :=
    carried_of_empty hrest hempty
  have hwrites : s.writes = [] := writes_of_empty hs hempty
  have hnone : pendingLists { s with main := s.main.eraseIdx block } = 0 := by omega
  exact {
    urls := rfl
    numberOfItems_eq := rfl
    once := Nat.le_trans (Nat.le_of_eq hnone) (Nat.zero_le 1)
    awaiting := fun h => absurd (hnone ▸ h) (Nat.lt_irrefl 0)
    fresh := hrest.fresh
    carried_nodup := hrest.carried_nodup
    carried_fetching := fun w hw => absurd (hcarried ▸ hw) List.not_mem_nil
    carried_fits := fun w hw => absurd (hcarried ▸ hw) List.not_mem_nil
    updated := hrest.updated
    writes_fit := fun w hw => absurd (hwrites ▸ hw) List.not_mem_nil }

theorem run_slots (hs : Slots kit s) {block : ℕ} {b : Block Image} (hb : s.main[block]? = some b) :
    Slots kit (b.run { s with main := s.main.eraseIdx block }) := by
  have hrest := dequeued_slots hs block
  cases b with
  | stopAnimating => exact hrest
  | showErrorAlert error => exact hrest
  | update avatars => exact update_slots hs hb
  | updateCell index model =>
    have hperm : (carried s).Perm
        ((index, model) :: carried { s with main := s.main.eraseIdx block }) := carried_dequeued hb
    have hnodup := (hperm.map Prod.fst).nodup_iff.mp hs.carried_nodup
    have hmem : (index, model) ∈ carried s := hperm.mem_iff.mpr List.mem_cons_self
    exact write_slots hrest (fits_mono (s := s) rfl (fun _ h => h) (hs.carried_fits _ hmem))
      (List.nodup_cons.mp hnodup).1

/-- What a step does: a cell that is shown makes a fetch, or leaves the picker as it is. -/
theorem step_cases {e : Event} (h : step foundation kit s e = some t) :
    (∃ completion, e = .listEnded completion ∧ s.listRequest = true ∧ t = { s with
        listRequest := false
        main := s.main ++ (loadImageList foundation completion).elim [] listBlocks }) ∨
      (∃ item a, e = .cellForItemAt item ∧ s.images[item]? = some a ∧
        ((a.image = none ∧ a.isFetching = false ∧ t = fetchImage foundation item a s) ∨
          (¬ (a.image = none ∧ a.isFetching = false) ∧ t = s))) ∨
      (∃ request completion r, e = .imageEnded request completion ∧
        s.imageRequests[request]? = some r ∧ t = { s with
          imageRequests := s.imageRequests.eraseIdx request
          main := s.main ++ (loadImage completion).elim [] (imageBlocks kit r.1 r.2)
          responses := s.responses ++ [(r.2.url, completion)] }) ∨
      ∃ block b, e = .main block ∧ s.main[block]? = some b ∧
        t = b.run { s with main := s.main.eraseIdx block } := by
  cases e with
  | listEnded completion =>
    obtain ⟨hrequest, heq⟩ := Option.ite_none_right_eq_some.mp h
    exact Or.inl ⟨completion, rfl, hrequest, (Option.some.inj heq).symm⟩
  | cellForItemAt item =>
    obtain ⟨-, heq⟩ := Option.ite_none_right_eq_some.mp h
    obtain ⟨a, ha, rfl⟩ := Option.map_eq_some_iff.mp heq
    refine Or.inr (Or.inl ⟨item, a, rfl, ha, ?_⟩)
    have hnone : a.image.isNone = true ↔ a.image = none := Option.isNone_iff_eq_none
    by_cases hidle : a.image.isNone ∧ a.isFetching = false
    · exact Or.inl ⟨hnone.mp hidle.1, hidle.2, if_pos hidle⟩
    · exact Or.inr ⟨fun h => hidle ⟨hnone.mpr h.1, h.2⟩, if_neg hidle⟩
  | imageEnded request completion =>
    obtain ⟨r, hr, rfl⟩ := Option.map_eq_some_iff.mp h
    exact Or.inr (Or.inr (Or.inl ⟨request, completion, r, rfl, hr, rfl⟩))
  | main block =>
    obtain ⟨b, hb, rfl⟩ := Option.map_eq_some_iff.mp h
    exact Or.inr (Or.inr (Or.inr ⟨block, b, rfl, hb, rfl⟩))

theorem step_slots {e : Event} (hs : Slots kit s) (h : step foundation kit s e = some t) :
    Slots kit t := by
  rcases step_cases h with ⟨completion, -, hrequest, rfl⟩ |
    ⟨item, a, -, ha, ⟨himage, hidle, rfl⟩ | ⟨-, rfl⟩⟩ | ⟨request, completion, r, -, hr, rfl⟩ |
    ⟨block, b, -, hb, rfl⟩
  · exact listEnded_slots hs hrequest _
  · exact fetchImage_slots hs ha himage hidle
  · exact hs
  · exact imageEnded_slots hs hr completion
  · exact run_slots hs hb

theorem inSlots_of_slots (hs : Slots kit s) : InSlots kit s := by
  refine ⟨hs.numberOfItems_eq, fun w hw => ⟨?_, hs.writes_fit w hw⟩, hs.urls, ?_⟩
  · have hlt := (List.getElem?_eq_some_iff.mp (hs.writes_fit w hw).url).1
    rw [← List.length_map AvatarViewModel.url, hs.urls]
    exact hlt
  · exact hs.carried_nodup.sublist ((List.sublist_append_left _ _).map _)

/-- An item with an image is left as it is. -/
theorem step_image {e : Event} (hs : Slots kit s) (h : step foundation kit s e = some t)
    {a : AvatarViewModel Image} (ha : s.images[index]? = some a) (himage : a.image ≠ none) :
    t.images[index]? = some a := by
  have hother {i : ℕ} {b : AvatarViewModel Image} (hb : s.images[i]? = some b)
      (hnone : b.image = none) (m : AvatarViewModel Image) :
      (s.images.set i m)[index]? = some a := by
    have hne : i ≠ index := by
      rintro rfl
      obtain rfl := Option.some.inj (ha.symm.trans hb)
      exact himage hnone
    exact (List.getElem?_set_ne hne).trans ha
  rcases step_cases h with ⟨completion, -, -, rfl⟩ |
    ⟨item, b, -, hb, ⟨hnone, -, rfl⟩ | ⟨-, rfl⟩⟩ | ⟨request, completion, r, -, -, rfl⟩ |
    ⟨block, b, -, hb, rfl⟩
  · exact ha
  · rw [fetchImage_images]
    exact hother hb hnone _
  · exact ha
  · exact ha
  · have hmem := List.mem_of_getElem? hb
    cases b with
    | stopAnimating => exact ha
    | showErrorAlert error => exact ha
    | update avatars =>
      have hpending : 0 < pendingLists s :=
        Nat.add_pos_right _ (List.countP_pos_iff.mpr ⟨_, hmem, rfl⟩)
      rw [hs.awaiting hpending] at ha
      cases ha
    | updateCell i m =>
      have hcarried : (i, m) ∈ carried s :=
        List.mem_append_right _ (List.mem_filterMap.mpr ⟨_, hmem, rfl⟩)
      obtain ⟨b, hb, hnone, -⟩ := hs.carried_fetching _ hcarried
      exact hother hb hnone m

theorem reachable_slots {apiKey : String} {es : List Event}
    (h : run (step foundation kit) (viewDidLoad foundation apiKey) es = some s) : Slots kit s :=
  run_invariant (fun _ _ _ hs h => step_slots hs h) (viewDidLoad_slots foundation kit apiKey) h

/-- In every run the responses land in their own slots, and an image once there stays. -/
theorem run_inSlots (foundation : Foundation URL) (kit : UIKit Image) (apiKey : String)
    {es : List Event} {s : Picker Image}
    (h : run (step foundation kit) (viewDidLoad foundation apiKey) es = some s) :
    InSlots kit s ∧ ∀ fs t, run (step foundation kit) s fs = some t →
      ∀ (index : ℕ) a, s.images[index]? = some a → a.image ≠ none → t.images[index]? = some a := by
  have hs := reachable_slots h
  refine ⟨inSlots_of_slots hs, fun fs t ht index a ha himage => ?_⟩
  have hstep : ∀ (u : Picker Image) e v, Slots kit u ∧ u.images[index]? = some a →
      step foundation kit u e = some v → Slots kit v ∧ v.images[index]? = some a := by
    rintro u e v ⟨hu, ha⟩ h
    exact ⟨step_slots hu h, step_image hu h ha himage⟩
  exact (run_invariant hstep ⟨hs, ha⟩ ht).2

/-- Addresses that are what they are built from, and a search that finds two pictures. -/
def twoHits : Foundation String where
  url := some
  components host _ := some host
  decode _ := some ⟨some 2, some [⟨some "first"⟩, ⟨none⟩, ⟨some "second"⟩]⟩

/-- A task that brought data. -/
def delivered (data : Data) : Completion := ⟨some data, some 200, none⟩

/-- Both pictures are fetched; the second comes first, and is shown again. -/
def bothFetched : List Event :=
  [.listEnded (delivered .empty), .main 0, .main 0, .cellForItemAt 0, .cellForItemAt 1,
    .imageEnded 1 (delivered .empty), .imageEnded 0 (delivered .empty), .main 0, .main 0,
    .cellForItemAt 1]

theorem run_inSlots_bothFetched :
    ∃ s, run (step twoHits plainKit) (viewDidLoad twoHits "key") bothFetched = some s ∧
      InSlots plainKit s := by
  obtain ⟨s, hrun⟩ :
      ∃ s, run (step twoHits plainKit) (viewDidLoad twoHits "key") bothFetched = some s := ⟨_, rfl⟩
  exact ⟨s, hrun, (run_inSlots twoHits plainKit "key" hrun).1⟩

end TinkoffChat.ImagePicker

import TinkoffChat.ProfileFiles
import Mathlib.Data.Int.Notation

/-!
Requests of the avatar service over the network manager. A request without an
address fails at once. One that was sent ends with an error, a response, data,
or none of them: the handler gets a failure or a model, or is never called.
-/
namespace TinkoffChat.AvatarService

open ProfileFiles

variable {URL Model : Type*}

structure ImageAPI where
  imageUrl : Option String

structure APIImageSearchResponse where
  total : Option ℤ
  hits : Option (List ImageAPI)

/-- What the service uses of Foundation: `URL(string:)`, the address of URLComponents with
query items, and the JSON decoder of a search response. -/
structure Foundation (URL : Type*) where
  url : String → Option URL
  components : String → List (String × String) → Option URL
  decode : Data → Option APIImageSearchResponse

/-- `NetworkManager.Errors`, and the errors of the session by what they say of themselves. -/
inductive NetworkError
  | session (localizedDescription : String)
  | requestError (string : String)
  deriving DecidableEq

/-- What a data task ends with; there is a status code if the response is an HTTP one. -/
structure Completion where
  data : Option Data
  statusCode : Option ℤ
  error : Option String

/-- `urlRequest` of ImageListRequest. -/
def imageListRequest (foundation : Foundation URL) (apiKey : String) : Option URL :=
  foundation.components "https://pixabay.com/api/"
    [("key", apiKey), ("image_type", "photo"), ("per_page", "100")]

/-- `urlRequest` of ImageRequest. -/
def imageRequest (foundation : Foundation URL) (urlPath : String) : Option URL :=
  foundation.url urlPath

/-- What `send` calls its handler with before it returns, if it does; else a task was resumed. -/
def send (urlRequest : Option URL) : Option NetworkError :=
  match urlRequest with
  | none => some (.requestError "urlRequest nil")
  | some _ => none

/-- What the completion of the data task calls the handler with; none if it does not. -/
def dataTask (parse : Data → Option Model) (c : Completion) : Option (Except NetworkError Model) :=
  match c.error with
  | some error => some (.error (.session error))
  | none =>
    if c.statusCode.any fun code => !(200 ≤ code && code ≤ 299) then
      some (.error (.requestError "status code error"))
    else
      c.data.map fun data =>
        match parse data with
        | some model => .ok model
        | none => .error (.requestError "unable to parse")

/-- The links of a search response: the hits that have one, in their order. -/
def imageUrls (searchResponse : APIImageSearchResponse) : List String :=
  (searchResponse.hits.map fun hits => hits.filterMap ImageAPI.imageUrl).getD []

/-- What the handler of `loadImageList` gets when the task ends. -/
def loadImageList (foundation : Foundation URL) (c : Completion) :
    Option (Except NetworkError (List String)) :=
  (dataTask foundation.decode c).map fun result => result.map imageUrls

/-- What the handler of `loadImage` gets when the task ends: the decoder takes data as it is. -/
def loadImage (c : Completion) : Option (Except NetworkError Data) := dataTask some c

/-- The task brought data: no error, and no status code but one of success. -/
def Completion.Delivers (c : Completion) (data : Data) : Prop :=
  c.error = none ∧ (∀ code, c.statusCode = some code → 200 ≤ code ∧ code ≤ 299) ∧
    c.data = some data

theorem loadImage_eq_ok_iff {c : Completion} {data : Data} :
    loadImage c = some (.ok data) ↔ c.Delivers data := by
  obtain ⟨received, statusCode, error⟩ := c
  cases error with
  | some error => simp [loadImage, dataTask, Completion.Delivers]
  | none =>
    cases statusCode with
    | none => simp [loadImage, dataTask, Completion.Delivers]
    | some code =>
      by_cases hcode : 200 ≤ code ∧ code ≤ 299
      · simp [loadImage, dataTask, Completion.Delivers, hcode.1, hcode.2]
      · have hstatus : code < 200 ∨ 299 < code := by omega
        simp [loadImage, dataTask, Completion.Delivers, hcode, hstatus]

end TinkoffChat.AvatarService

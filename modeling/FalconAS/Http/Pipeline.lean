import FalconAS.Http.Cpp23

/-!
# Pipelines

The requests that a client sends, and the bytes it sends for them. `props` is what the server should record; it is
stated in terms of the request alone, without a word on how the parser reads it.
-/

namespace FalconAS.Http

open FalconAS.Seq

/-- A well-formed request. `body` is `none` for a GET and the payload for a POST request. -/
structure WireRequest where
  url : Bytes
  headers : List (Bytes × Bytes)
  body : Option Bytes
  url_plain : 32 ∉ url ∧ cr ∉ url ∧ lf ∉ url
  url_end : url.getLast? ≠ some 58
  key_plain : ∀ h ∈ headers, h.1 ≠ [] ∧ cr ∉ h.1 ∧ lf ∉ h.1 ∧ ¬ ofString ": " <:+: h.1
  value_plain : ∀ h ∈ headers, h.2 ≠ [] ∧ cr ∉ h.2 ∧ lf ∉ h.2
  nodup : (headers.map Prod.fst).Nodup
  announced : ∀ payload ∈ body, (httpHeaderContentLength, ofString (toString payload.length)) ∈ headers
  body_plain : ∀ payload ∈ body, payload.length ≤ 2048 ∧ ¬ http11EndMarker <:+: payload

def parameterOf (pair : Bytes) : Option (Bytes × Bytes) :=
  let key := pair.takeWhile (· != 61)
  if 61 ∈ pair ∧ key ≠ [] then some (key, (pair.dropWhile (· != 61)).drop 1) else none

/-- The parameters of a URL: the pairs between the `&` of the part behind the first `?`. -/
def urlParameters (url : Bytes) : List (Bytes × Bytes) :=
  (((url.dropWhile (· != 63)).drop 1).splitOn 38).filterMap parameterOf

namespace WireRequest

def methodName (r : WireRequest) : Bytes := if r.body.isSome then ofString "POST" else ofString "GET"

def requestLine (r : WireRequest) : Bytes := r.methodName ++ ofString " " ++ r.url ++ ofString " HTTP/1.1"

def headerLine (h : Bytes × Bytes) : Bytes := h.1 ++ ofString ": " ++ h.2

def block (r : WireRequest) : Bytes := r.requestLine ++ r.headers.flatMap fun h => crlf ++ headerLine h

def payload (r : WireRequest) : Bytes := r.body.getD []

def render (r : WireRequest) : Bytes := r.block ++ http11EndMarker ++ r.payload

/-- What is to be recorded. -/
def props (r : WireRequest) : RequestProperties where
  httpVersion := .v11
  httpMethod := if r.body.isSome then .post else .get
  requestHeaders := ⟨r.headers, r.nodup⟩
  url := r.url
  payload := r.payload
  urlParams := if r.body.isSome then .empty else StringMap.empty.emplaceAll (urlParameters r.url)

end WireRequest

/-- A pipeline on the wire. -/
def sent (rs : List WireRequest) : Bytes := rs.flatMap WireRequest.render

end FalconAS.Http

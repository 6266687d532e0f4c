import Mathlib.Tactic.Simps.Basic
import FalconAS.Http.StringHelper
import FalconAS.Machine.Run

/-!
# `HTTPParser`

The incremental parser of `lib/http/httpparser.cpp`. The C++11 parser of `lib/http/httpparser-cpp11.cpp` is the
same code except for the two functions that read headers and URL parameters, so the parser is given over these
two (`Readers`); `Cpp23.lean` and `Cpp11.lean` fill them in.

A member function takes the object before the call and returns a result together with the object after it,
also where an exception leaves the function.
-/

namespace FalconAS.Http

open FalconAS.Seq

/-- `_parseRequestHeaders` and `_parseGETParameter` of one of the two parsers. Neither parser lets a header
without a value into the map. -/
structure Readers where
  parseRequestHeaders : Bytes → StringMap → StringMap
  parseGETParameter : Bytes → StringMap → StringMap
  value_ne_nil : ∀ request, ∀ e ∈ (parseRequestHeaders request .empty).entries, e.2 ≠ []

/-- The members of `HTTPParser` that its functions read. `_RequestHeaders`, `_RequestCountGet` and
`_RequestCountPost` are never read and left out. -/
structure HTTPParser where
  splittedRequests : List Bytes
  requestParseError : UInt16
  postWaitContentLength : Bool
  postContentLength : UInt16
  httpRequestBuffer : Bytes
  httpRequestBufferMax : UInt16
  requestProperties : RequestProperties
  requests : List RequestProperties
  deriving DecidableEq

abbrev Result := EStateM.Result Exception HTTPParser

/-! ## Parsing one block -/

/-- `_parseRequestProperties`; `none` stands for the result `false`, which leaves the properties alone. -/
def parseRequestProperties (request : Bytes) (resultBaseProps : RequestProperties) : Option RequestProperties :=
  let startPos := (find crlf request).getD request.length
  match rsplit request startPos (ofString " ") [] with
  | [version, url, method] =>
      some { resultBaseProps with
        httpVersion :=
          if (find (ofString "HTTP/1.1") version).isSome then .v11
          else resultBaseProps.httpVersion
        httpMethod :=
          if (find (ofString "GET") method).isSome then .get
          else if (find (ofString "POST") method).isSome then .post
          else resultBaseProps.httpMethod
        url := url }
  | _ => none

/-- The loop of `_parseGETParameter` over the pairs, which both parsers share. -/
def parameterLoop (pairs : List Bytes) (resultRef : StringMap) : StringMap :=
  pairs.foldl (fun resultRef pair =>
    match find (ofString "=") pair with
    | none => resultRef
    | some pos =>
        if pos ≠ 0 ∧ pair.length > pos then resultRef.emplace (pair.take pos) (pair.drop (pos + 1))
        else resultRef) resultRef

namespace HTTPParser

/-- The constructor. C++ leaves the numbers of `_RequestProperties` open here; they are written before they
are read. -/
def fresh (bufferSize : UInt16) : HTTPParser where
  splittedRequests := []
  requestParseError := 0
  postWaitContentLength := false
  postContentLength := 0
  httpRequestBuffer := []
  httpRequestBufferMax := bufferSize
  requestProperties := .unparsed
  requests := []

/-- The payload is taken off the front of the buffer and the request is recorded. -/
@[simps] def completePOST (p : HTTPParser) : HTTPParser :=
  { p with
    requestProperties :=
      { p.requestProperties with payload := p.httpRequestBuffer.take p.postContentLength.toNat }
    httpRequestBuffer := p.httpRequestBuffer.drop p.postContentLength.toNat
    requests := p.requests ++
      [{ p.requestProperties with payload := p.httpRequestBuffer.take p.postContentLength.toNat }] }

/-- The end of the POST branch of `_processRequestProperties`, which looks for the payload. -/
def takeBody (p : HTTPParser) (index : Nat) : Result Bool :=
  if p.splittedRequests.length = 1 then
    if p.httpRequestBuffer.length ≥ p.postContentLength.toNat then .ok true p.completePOST
    else .ok true { p with postWaitContentLength := true }
  else if p.splittedRequests.length > index then
    -- the test above holds for every index, so `at` is reached for the last block too
    match p.splittedRequests[index + 1]? with
    | none => .error .outOfRangeAt p
    | some nextRequest =>
        if nextRequest.length ≥ p.postContentLength.toNat then
          let props := { p.requestProperties with payload := nextRequest.take p.postContentLength.toNat }
          .ok true { p with
            requestProperties := props
            splittedRequests := p.splittedRequests.set (index + 1) (nextRequest.drop p.postContentLength.toNat)
            requests := p.requests ++ [props] }
        else .ok false p
  else .ok true p

/-- The POST branch of `_processRequestProperties`. -/
def processPOST (p : HTTPParser) (index : Nat) : Result Bool :=
  match p.requestProperties.requestHeaders.find httpHeaderContentLength with
  | none => .ok false p
  | some contentLength =>
      if isDigits contentLength = false then .ok false p
      else
        match stoi contentLength with
        | .error e => .error e p
        | .ok value =>
            -- the `int` is narrowed to `uint16_t` before it is compared with the maximum
            let p := { p with postContentLength := UInt16.ofInt value }
            if p.postContentLength > httpPostMaxContentLength then .ok false p else p.takeBody index

def processRequestProperties (R : Readers) (p : HTTPParser) (index : Nat) : Result Bool :=
  match p.splittedRequests[index]? with
  | none => .error .outOfRangeAt p
  | some request =>
      if request.isEmpty then .ok false p
      else
        let p := { p with requestProperties := .unparsed }
        match parseRequestProperties request p.requestProperties with
        | none => .ok false p
        | some props =>
            let p := { p with requestProperties := props }
            if props.httpVersion ≠ .v11 then .ok false p
            else if props.httpMethod = .other then .ok false p
            else
              let props :=
                { props with requestHeaders := R.parseRequestHeaders request props.requestHeaders }
              let p := { p with requestProperties := props }
              match props.httpMethod with
              | .get =>
                  let props := { props with urlParams := R.parseGETParameter props.url props.urlParams }
                  .ok true { p with requestProperties := props, requests := p.requests ++ [props] }
              | .post => p.processPOST index
              | .other => .ok true p

/-- The loop of `_processRequests` from block `index` on. -/
def processLoop (R : Readers) : Nat → Nat → HTTPParser → Result Unit
  | 0, _, p => .ok () p
  | fuel + 1, index, p =>
      if index < p.splittedRequests.length then
        match p.processRequestProperties R index with
        | .error e p => .error e p
        | .ok false p => .ok () { p with requestParseError := httpErrorBadRequest }
        | .ok true p => processLoop R fuel (index + 1) p
      else .ok () p

def processRequests (R : Readers) (p : HTTPParser) : Result Unit :=
  let (buffer, splitted) := split p.httpRequestBuffer http11EndMarker p.splittedRequests
  let p := { p with httpRequestBuffer := buffer, splittedRequests := splitted }
  processLoop R splitted.length 0 p

def appendBuffer (R : Readers) (p : HTTPParser) (c : Chunk) : Result Unit :=
  if p.httpRequestBuffer.length + c.bytes.length > p.httpRequestBufferMax.toNat then .ok () p
  else
    let p := { p with httpRequestBuffer := p.httpRequestBuffer ++ c.bytes }
    if p.postWaitContentLength = true ∧ p.httpRequestBuffer.length ≥ p.postContentLength.toNat then
      .ok () { p.completePOST with postWaitContentLength := false }
    else
      let p := { p with splittedRequests := [] }
      match find http11EndMarker p.httpRequestBuffer with
      | none => .ok () p
      | some _ => p.processRequests R

end HTTPParser

end FalconAS.Http

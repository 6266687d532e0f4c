import FalconAS.Http.Parser

/-!
# A call, block by block

`_processRequestProperties` reads a block that nothing can change any more, judges it, and only then looks at
what lies behind the block. `examine` is the judgement, a function of the block alone. `walk` is the loop of
`_processRequests` as a recursion over the list of blocks, and `call` is `appendBuffer` in terms of `walk`. The
scratch vector `_SplittedRequests` has no part in them.
-/

namespace FalconAS.Http

open FalconAS.Seq

/-- What `_processRequestProperties` makes of a block. `rejected` and `throws` carry the properties that stay
behind in `_RequestProperties`, and `rejected` the announced length if it was stored before the rejection. -/
inductive Verdict where
  | empty
  | rejected (props : RequestProperties) (length : Option UInt16)
  | throws (e : Exception) (props : RequestProperties)
  | get (props : RequestProperties)
  | post (props : RequestProperties) (length : UInt16)
  deriving DecidableEq

/-- The verdict on a POST block, by its `Content-Length` header. -/
def announce (props : RequestProperties) : Verdict :=
  match props.requestHeaders.find httpHeaderContentLength with
  | none => .rejected props none
  | some contentLength =>
      if isDigits contentLength = false then .rejected props none
      else
        match stoi contentLength with
        | .error e => .throws e props
        | .ok value =>
            if UInt16.ofInt value > httpPostMaxContentLength then .rejected props (some (UInt16.ofInt value))
            else .post props (UInt16.ofInt value)

def examine (R : Readers) (request : Bytes) : Verdict :=
  if request.isEmpty then .empty
  else
    match parseRequestProperties request .unparsed with
    | none => .rejected .unparsed none
    | some props =>
        if props.httpVersion ≠ .v11 then .rejected props none
        else
          match props.httpMethod with
          | .other => .rejected props none
          | .get =>
              .get { props with
                requestHeaders := R.parseRequestHeaders request props.requestHeaders
                urlParams := R.parseGETParameter props.url props.urlParams }
          | .post => announce { props with requestHeaders := R.parseRequestHeaders request props.requestHeaders }

namespace HTTPParser

/-- `_SplittedRequests.clear()`. -/
@[simps] def clear (p : HTTPParser) : HTTPParser := { p with splittedRequests := [] }

/-- The state in which a rejected block leaves the parser. -/
@[simps] def reject (p : HTTPParser) (props : RequestProperties) (length : Option UInt16) : HTTPParser :=
  { p with
    requestProperties := props
    postContentLength := length.getD p.postContentLength
    requestParseError := httpErrorBadRequest }

@[simps] def record (p : HTTPParser) (props : RequestProperties) : HTTPParser :=
  { p with requestProperties := props, requests := p.requests ++ [props] }

/-- A POST request is taken up before its body is looked for. -/
@[simps] def expect (p : HTTPParser) (props : RequestProperties) (length : UInt16) : HTTPParser :=
  { p with requestProperties := props, postContentLength := length }

/-- The loop over the blocks. The first `k` bytes of the first block are the payload of the request before it;
`single` says that the buffer was split into one block, so that a POST block ends the loop. -/
def walk (R : Readers) (single : Bool) : Nat → List Bytes → HTTPParser → Result Unit
  | _, [], p => .ok () p
  | k, b :: bs, p =>
      match examine R (b.drop k) with
      | .empty => .ok () { p with requestParseError := httpErrorBadRequest }
      | .rejected props length => .ok () (p.reject props length)
      | .throws e props => .error e { p with requestProperties := props }
      | .get props => walk R single 0 bs (p.record props)
      | .post props length =>
          let p := p.expect props length
          if single then
            if length.toNat ≤ p.httpRequestBuffer.length then .ok () p.completePOST
            else .ok () { p with postWaitContentLength := true }
          else
            match bs with
            | [] => .error .outOfRangeAt p
            | next :: _ =>
                if length.toNat ≤ next.length then
                  walk R single length.toNat bs (p.record { props with payload := next.take length.toNat })
                else .ok () { p with requestParseError := httpErrorBadRequest }

/-- The blocks that `walk` comes to, each without the payload in front of it and with the blocks behind it. -/
def reached (R : Readers) (single : Bool) : Nat → List Bytes → List (Bytes × List Bytes)
  | _, [] => []
  | k, b :: bs =>
      (b.drop k, bs) ::
        match examine R (b.drop k) with
        | .get _ => reached R single 0 bs
        | .post _ length =>
            if single then []
            else
              match bs with
              | [] => []
              | next :: _ => if length.toNat ≤ next.length then reached R single length.toNat bs else []
        | _ => []

/-! ## What a call does with its chunk -/

/-- The chunk does not fit into the buffer. -/
def Refuses (p : HTTPParser) (c : Chunk) : Prop :=
  p.httpRequestBuffer.length + c.bytes.length > p.httpRequestBufferMax.toNat

/-- The chunk completes the pending body. -/
def Completes (p : HTTPParser) (c : Chunk) : Prop :=
  p.postWaitContentLength = true ∧ (p.httpRequestBuffer ++ c.bytes).length ≥ p.postContentLength.toNat

instance (p : HTTPParser) (c : Chunk) : Decidable (p.Refuses c) := inferInstanceAs (Decidable (_ > _))

instance (p : HTTPParser) (c : Chunk) : Decidable (p.Completes c) := inferInstanceAs (Decidable (_ ∧ _))

/-- The call does not find an end marker in a body that is still incomplete. -/
def PlainBody (p : HTTPParser) (c : Chunk) : Prop :=
  p.postWaitContentLength = true → (p.httpRequestBuffer ++ c.bytes).length < p.postContentLength.toNat →
    ¬ http11EndMarker <:+: p.httpRequestBuffer ++ c.bytes

instance (p : HTTPParser) (c : Chunk) : Decidable (PlainBody p c) := inferInstanceAs (Decidable (_ → _))

def batch (p : HTTPParser) (c : Chunk) : List Bytes :=
  if p.Refuses c ∨ p.Completes c then [] else (split (p.httpRequestBuffer ++ c.bytes) http11EndMarker []).2

/-- The blocks that the loop of the call comes to. -/
def visited (R : Readers) (p : HTTPParser) (c : Chunk) : List (Bytes × List Bytes) :=
  reached R ((p.batch c).length == 1) 0 (p.batch c)

/-- `appendBuffer` in terms of `walk`. -/
def call (R : Readers) (p : HTTPParser) (c : Chunk) : Result Unit :=
  if p.Refuses c then .ok () p
  else if p.Completes c then
    .ok () { completePOST { p with httpRequestBuffer := p.httpRequestBuffer ++ c.bytes } with
      postWaitContentLength := false }
  else
    let (rest, blocks) := split (p.httpRequestBuffer ++ c.bytes) http11EndMarker []
    walk R (blocks.length == 1) 0 blocks { p with httpRequestBuffer := rest }

end HTTPParser

end FalconAS.Http

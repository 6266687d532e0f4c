import Mathlib.Data.List.Perm.Basic
import Mathlib.Tactic.Simps.Basic
import FalconAS.Http.Data
import FalconAS.Machine.Run

/-!
# `HTTPGenerator`

The response generator of `lib/http/httpgenerator.cpp`. The constructor leaves most members as they happen to be,
so it is given over an object with arbitrary members. Pointers are a buffer and an offset that may lie outside of
it. Reading or writing outside of a buffer is undefined and has no result.
-/

namespace FalconAS.Http

/-! ## Members -/

/-- The values of `_SendType`. It is not set before the first `MsgReset`; `other` stands for every value but the
two constants. -/
inductive SendType where
  | header
  | body
  | other
  deriving DecidableEq

/-- What a pointer points into: the member `_HeaderBuffer`, the bytes of a body, or nothing. -/
inductive Region where
  | headerBuffer
  | body (bytes : Bytes)
  | null
  deriving DecidableEq

structure Pointer where
  region : Region
  offset : Int
  deriving DecidableEq

/-- Pointer arithmetic, which nothing keeps inside of the buffer. -/
@[simps] def Pointer.add (p : Pointer) (n : Int) : Pointer := { p with offset := p.offset + n }

def headerBufferSize : Nat := 254

def sendStateIdle : UInt8 := 0

structure HTTPGenerator where
  sendStatus : UInt8
  sendType : SendType
  statusCode : UInt16
  statusText : Bytes
  headerLength : UInt32
  bodyLength : UInt32
  headerRemainingBytes : UInt32
  bodyRemainingBytes : UInt32
  headerPointer : Pointer
  bodyPointer : Pointer
  headerBuffer : Bytes
  headers : StringMap
  headerBuffer_length : headerBuffer.length = headerBufferSize
  deriving DecidableEq

theorem length_zeroBuffer : (List.replicate headerBufferSize (0 : UInt8)).length = headerBufferSize :=
  List.length_replicate

structure SendMetadata where
  bufferRef : Pointer
  bufferSize : UInt32
  deriving DecidableEq

/-- An order in which C++ may iterate over a map. -/
structure Iteration (m : StringMap) where
  order : List (Bytes × Bytes)
  perm : order.Perm m.entries

theorem noHeaders_perm : ([] : List (Bytes × Bytes)).Perm [] := .nil

namespace HTTPGenerator

/-! ## Building the message -/

/-- The constructor, on memory that holds `g`. -/
def construct (g : HTTPGenerator) : HTTPGenerator :=
  { g with sendStatus := sendStateIdle, statusCode := 200, statusText := ofString "OK", headers := .empty }

@[simps] def msgReset (g : HTTPGenerator) : HTTPGenerator :=
  { g with
    statusCode := 200
    statusText := ofString "OK"
    headerPointer := ⟨.headerBuffer, 0⟩
    bodyPointer := ⟨.null, 0⟩
    headerLength := 0
    bodyLength := 0
    sendStatus := sendStateIdle
    sendType := .header
    headers := .empty }

@[simps] def msgSetStatus (g : HTTPGenerator) (statusCode : UInt16) (statusText : Bytes) : HTTPGenerator :=
  { g with statusCode := statusCode, statusText := statusText }

@[simps] def msgSetSendStatus (g : HTTPGenerator) (sendStatus : UInt8) : HTTPGenerator :=
  { g with sendStatus := sendStatus }

def msgGetSendStatus (g : HTTPGenerator) : UInt8 := g.sendStatus

@[simps] def msgAddHeader (g : HTTPGenerator) (headerID headerValue : Bytes) : HTTPGenerator :=
  { g with headers := g.headers.emplace headerID headerValue }

/-- `currentDate` is what the clock says, in the format of the `Date` header. -/
def msgAddDateHeader (g : HTTPGenerator) (currentDate : Bytes) : HTTPGenerator :=
  g.msgAddHeader (ofString "Date") currentDate

@[simps] def msgSetBodyRef (g : HTTPGenerator) (bodyAddress : Pointer) (bodyLength : UInt32) : HTTPGenerator :=
  { g with bodyPointer := bodyAddress, bodyLength := bodyLength, bodyRemainingBytes := bodyLength }

/-- The text that `MsgGenerate` builds. -/
def message (g : HTTPGenerator) (it : Iteration g.headers) : Bytes :=
  ofString "HTTP/1.1 " ++ ofString (toString g.statusCode.toNat) ++ ofString " " ++ g.statusText ++ crlf ++
    it.order.flatMap (fun header => header.1 ++ ofString ": " ++ header.2 ++ crlf) ++
    ofString "Content-Length: " ++ ofString (toString g.bodyLength.toNat) ++ crlf ++ crlf

/-- `MsgGenerate`; there is no result if `copy` writes past the end of the buffer. -/
def msgGenerate (g : HTTPGenerator) (it : Iteration g.headers) : Option HTTPGenerator :=
  let message := g.message it
  let headerLength := UInt32.ofNat message.length
  let copied := message.take headerLength.toNat
  if h : copied.length ≤ headerBufferSize then
    some { g with
      headerLength := headerLength
      headerRemainingBytes := headerLength
      headerBuffer := copied ++ g.headerBuffer.drop copied.length
      headerBuffer_length := by
        rw [List.length_append, List.length_drop, g.headerBuffer_length]
        omega }
  else none

/-! ## Sending it -/

def msgGetSendMetadata (g : HTTPGenerator) : SendMetadata :=
  match g.sendType with
  | .header => ⟨g.headerPointer, g.headerRemainingBytes⟩
  | .body => ⟨g.bodyPointer, g.bodyRemainingBytes⟩
  | .other => ⟨⟨.null, 0⟩, 0⟩

/-- `MsgUpdateSendMetadata`. An `unsigned int` is compared with the `ssize_t` as a number, and what is subtracted
from it wraps around. -/
def msgUpdateSendMetadata (g : HTTPGenerator) (sentBytes : Int) : Bool × HTTPGenerator :=
  if g.sendType = .header ∧ (g.headerRemainingBytes.toNat : Int) ≥ sentBytes then
    let g := { g with
      headerPointer := g.headerPointer.add sentBytes
      headerRemainingBytes := UInt32.ofInt (g.headerRemainingBytes.toNat - sentBytes) }
    -- the bytes that remain are compared with those that were sent
    if (g.headerRemainingBytes.toNat : Int) = sentBytes then
      (false, { g with sendType := .body, headerRemainingBytes := 0 })
    else (false, g)
  else if g.sendType = .body ∧ (g.bodyRemainingBytes.toNat : Int) ≥ sentBytes then
    let g := { g with
      bodyPointer := g.bodyPointer.add sentBytes
      bodyRemainingBytes := UInt32.ofInt (g.bodyRemainingBytes.toNat - sentBytes) }
    if (g.bodyRemainingBytes.toNat : Int) = sentBytes then (true, { g with bodyRemainingBytes := 0 })
    else (false, g)
  else (false, g)

/-- The bytes that a pointer into the region can read. -/
def bytesOf (g : HTTPGenerator) : Region → Bytes
  | .headerBuffer => g.headerBuffer
  | .body bytes => bytes
  | .null => []

/-- The `n` bytes at a pointer, if they lie inside of what it points into. -/
def read (g : HTTPGenerator) (p : Pointer) (n : Nat) : Option Bytes :=
  if n = 0 then some []
  else if 0 ≤ p.offset ∧ p.offset.toNat + n ≤ (g.bytesOf p.region).length then
    some (((g.bytesOf p.region).drop p.offset.toNat).take n)
  else none

end HTTPGenerator

end FalconAS.Http

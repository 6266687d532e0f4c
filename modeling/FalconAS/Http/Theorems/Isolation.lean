import FalconAS.Http.Theorems.HeaderBlock

/-!
# One response after another

A generator is used for one response after another, with a `MsgReset` in between. `MsgReset` leaves the two counters of
remaining bytes and the buffer as they are. Whether a response shows something of the ones before it depends on the
order of the calls: the counters have to be set again before they are used, and the text has to be read from its start.
-/

namespace FalconAS.Http

open FalconAS.Machine

/-- The calls of a generator. The order in which a map is iterated over is a function of the map. -/
inductive Call where
  | prepare (p : Preparation)
  | addDateHeader (currentDate : Bytes)
  | setSendStatus (sendStatus : UInt8)
  | generate (order : (m : StringMap) → Iteration m)
  | getSendMetadata
  | updateSendMetadata (sentBytes : Int)
  | getSendStatus

/-- What a caller sees. The bytes of the metadata are those that can be read at the pointer. -/
inductive Observation where
  | metadata (bytes : Option Bytes) (bufferSize : UInt32)
  | updated (returned : Bool)
  | sendStatus (sendStatus : UInt8)
  deriving DecidableEq

/-- `MsgGenerate` wrote past the end of the buffer. -/
inductive Overrun where
  | overrun

structure Observed where
  generator : HTTPGenerator
  observations : List Observation

namespace Observed

@[simps] def see (s : Observed) (o : Observation) : Observed := { s with observations := s.observations ++ [o] }

def call (s : Observed) : Call → EStateM.Result Overrun Observed Unit
  | .prepare p => .ok () { s with generator := s.generator.perform p }
  | .addDateHeader currentDate => .ok () { s with generator := s.generator.msgAddDateHeader currentDate }
  | .setSendStatus sendStatus => .ok () { s with generator := s.generator.msgSetSendStatus sendStatus }
  | .generate order =>
      match s.generator.msgGenerate (order s.generator.headers) with
      | none => .error .overrun s
      | some g => .ok () { s with generator := g }
  | .getSendMetadata =>
      let m := s.generator.msgGetSendMetadata
      .ok () (s.see (.metadata (s.generator.read m.bufferRef m.bufferSize.toNat) m.bufferSize))
  | .updateSendMetadata sentBytes =>
      let (returned, g) := s.generator.msgUpdateSendMetadata sentBytes
      .ok () (({ s with generator := g } : Observed).see (.updated returned))
  | .getSendStatus => .ok () (s.see (.sendStatus s.generator.msgGetSendStatus))

end Observed

/-- The generator after a history of calls on a new object. -/
def after (memory : HTTPGenerator) (history : List Call) : HTTPGenerator :=
  (stateOf (run Observed.call ⟨memory.construct, []⟩ history)).generator

/-- What is seen of some calls. -/
def results (g : HTTPGenerator) (calls : List Call) : List Observation :=
  (stateOf (run Observed.call ⟨g, []⟩ calls)).observations

/-- `MsgGenerate` comes before the calls that send. -/
def GeneratesFirst : List Call → Prop
  | .generate _ :: _ => True
  | .getSendMetadata :: _ => False
  | .updateSendMetadata _ :: _ => False
  | _ :: calls => GeneratesFirst calls
  | [] => True

/-! ## The protocol -/

/-- Whether `MsgGenerate` has been called since the last `MsgReset` and `MsgSetBodyRef` since the first, and the
generator that the calls have led to. -/
structure Phase where
  generated : Bool
  bodySet : Bool
  generator : HTTPGenerator

def Phase.next (p : Phase) (c : Call) : Phase where
  generated :=
    match c with
    | .prepare .reset => false
    | .generate _ => true
    | _ => p.generated
  bodySet :=
    match c with
    | .prepare (.setBodyRef _ _) => true
    | _ => p.bodySet
  generator := (stateOf (Observed.call ⟨p.generator, []⟩ c)).generator

theorem Phase.next_generator (p : Phase) (c : Call) :
    (p.next c).generator = (stateOf (Observed.call ⟨p.generator, []⟩ c)).generator := rfl

/-- The message is generated before it is sent, and only while the pointer is at the start of the buffer. The body is
known when it is its turn, and it is not in the buffer of the generator. -/
def Phase.Allowed (p : Phase) : Call → Prop
  | .prepare (.setBodyRef bodyAddress _) => bodyAddress.region ≠ .headerBuffer
  | .generate _ => p.generator.headerPointer.offset = 0
  | .getSendMetadata => p.generated = true ∧ (p.generator.sendType = .body → p.bodySet = true)
  | .updateSendMetadata _ => p.generated = true ∧ (p.generator.sendType = .body → p.bodySet = true)
  | _ => True

instance (p : Phase) (c : Call) : Decidable (p.Allowed c) := by
  unfold Phase.Allowed
  split <;> infer_instance

/-! ## Two generators -/

namespace HTTPGenerator

/-- All members but those that `MsgReset` leaves as they are. -/
def cleared (g : HTTPGenerator) : HTTPGenerator :=
  { g with
    headerLength := 0
    headerRemainingBytes := 0
    bodyRemainingBytes := 0
    headerBuffer := List.replicate headerBufferSize 0
    headerBuffer_length := length_zeroBuffer }

/-- Two generators that a caller who keeps to the protocol cannot tell apart. -/
structure Alike (p : Phase) (g h : HTTPGenerator) : Prop where
  cleared : g.cleared = h.cleared
  bodyRemainingBytes : p.bodySet = true → g.bodyRemainingBytes = h.bodyRemainingBytes
  bodyRegion : g.bodyPointer.region ≠ .headerBuffer
  headerRegion : g.headerPointer.region = .headerBuffer
  header : p.generated = true → g.headerRemainingBytes = h.headerRemainingBytes ∧
    ∃ text, text <+: g.headerBuffer ∧ text <+: h.headerBuffer ∧
      g.headerPointer.offset + g.headerRemainingBytes.toNat ≤ text.length

/-- Whatever depends on the other members only is the same. -/
theorem Alike.agree {β : Type} {p : Phase} {g h : HTTPGenerator} (a : Alike p g h) (f : HTTPGenerator → β)
    (hf : ∀ g, f g.cleared = f g) : f g = f h := by
  rw [← hf g, ← hf h, a.cleared]

theorem Alike.sendType {p : Phase} {g h : HTTPGenerator} (a : Alike p g h) : g.sendType = h.sendType :=
  a.agree HTTPGenerator.sendType fun _ => rfl

theorem Alike.headerPointer {p : Phase} {g h : HTTPGenerator} (a : Alike p g h) : g.headerPointer = h.headerPointer :=
  a.agree HTTPGenerator.headerPointer fun _ => rfl

theorem Alike.bodyPointer {p : Phase} {g h : HTTPGenerator} (a : Alike p g h) : g.bodyPointer = h.bodyPointer :=
  a.agree HTTPGenerator.bodyPointer fun _ => rfl

theorem Alike.reset (p : Phase) {g h : HTTPGenerator}
    (hbody : p.bodySet = true → g.bodyRemainingBytes = h.bodyRemainingBytes) :
    Alike (p.next (.prepare .reset)) g.msgReset h.msgReset where
  cleared := rfl
  bodyRemainingBytes := hbody
  bodyRegion := Region.noConfusion
  headerRegion := rfl
  header := Bool.noConfusion

theorem Alike.perform {p : Phase} {g h : HTTPGenerator} (a : Alike p g h) (c : Preparation)
    (hc : p.Allowed (.prepare c)) : Alike (p.next (.prepare c)) (g.perform c) (h.perform c) := by
  cases c with
  | reset => exact .reset p a.bodyRemainingBytes
  | setStatus statusCode statusText =>
      exact ⟨a.agree (fun g => (g.msgSetStatus statusCode statusText).cleared) fun _ => rfl,
        a.bodyRemainingBytes, a.bodyRegion, a.headerRegion, a.header⟩
  | addHeader headerID headerValue =>
      exact ⟨a.agree (fun g => (g.msgAddHeader headerID headerValue).cleared) fun _ => rfl,
        a.bodyRemainingBytes, a.bodyRegion, a.headerRegion, a.header⟩
  | setBodyRef bodyAddress bodyLength =>
      exact ⟨a.agree (fun g => (g.msgSetBodyRef bodyAddress bodyLength).cleared) fun _ => rfl,
        fun _ => rfl, hc, a.headerRegion, a.header⟩

/-- Two alike generators build the same message. -/
theorem Alike.message {p : Phase} {g h : HTTPGenerator} (a : Alike p g h) (order : (m : StringMap) → Iteration m) :
    g.message (order g.headers) = h.message (order h.headers) :=
  a.agree (fun g => g.message (order g.headers)) fun _ => rfl

/-! ## Sending -/

/-- What is read from the text is the same in both buffers. -/
theorem read_text {g h : HTTPGenerator} {text : Bytes} (hg : text <+: g.headerBuffer) (hh : text <+: h.headerBuffer)
    {p : Pointer} (hp : p.region = .headerBuffer) {n : Nat} (hle : p.offset + n ≤ text.length) :
    g.read p n = h.read p n := by
  obtain ⟨u, hu⟩ := hg
  obtain ⟨v, hv⟩ := hh
  have key : ∀ {k : HTTPGenerator} {w : Bytes}, text ++ w = k.headerBuffer → k.read p n =
      if n = 0 then some [] else if 0 ≤ p.offset then some ((text.drop p.offset.toNat).take n) else none := by
    intro k w hw
    unfold read
    rw [hp, bytesOf, ← hw]
    by_cases hn : n = 0
    · rw [if_pos hn, if_pos hn]
    · rw [if_neg hn, if_neg hn]
      by_cases hoff : 0 ≤ p.offset
      · rw [if_pos hoff, if_pos ⟨hoff, by rw [List.length_append]; omega⟩,
          List.drop_append_of_le_length (by omega), List.take_append_of_le_length (by rw [List.length_drop]; omega)]
      · rw [if_neg hoff, if_neg fun h => hoff h.1]
  rw [key hu, key hv]

/-- What is read elsewhere does not depend on the generator. -/
theorem read_elsewhere (g h : HTTPGenerator) {p : Pointer} (hp : p.region ≠ .headerBuffer) (n : Nat) :
    g.read p n = h.read p n := by
  have hbytes : g.bytesOf p.region = h.bytesOf p.region := by
    cases hr : p.region with
    | headerBuffer => exact absurd hr hp
    | body bytes => rfl
    | null => rfl
  unfold read
  rw [hbytes]

theorem Alike.metadata {p : Phase} {g h : HTTPGenerator} (a : Alike p g h) (hp : p.generated = true)
    (hbody : g.sendType = .body → p.bodySet = true) :
    g.msgGetSendMetadata = h.msgGetSendMetadata ∧
      g.read g.msgGetSendMetadata.bufferRef g.msgGetSendMetadata.bufferSize.toNat =
        h.read g.msgGetSendMetadata.bufferRef g.msgGetSendMetadata.bufferSize.toNat := by
  unfold msgGetSendMetadata
  rw [← a.sendType]
  cases htype : g.sendType with
  | header =>
      obtain ⟨hrem, text, hg, hh, hle⟩ := a.header hp
      exact ⟨by rw [a.headerPointer, hrem], read_text hg hh a.headerRegion hle⟩
  | body => exact ⟨by rw [a.bodyPointer, a.bodyRemainingBytes (hbody htype)], read_elsewhere g h a.bodyRegion _⟩
  | other => exact ⟨rfl, rfl⟩

theorem toNat_ofInt_le {x : Int} (hx : 0 ≤ x) : ((UInt32.ofInt x).toNat : Int) ≤ x := by
  rw [UInt32.ofInt, UInt32.toNat_ofNat']
  omega

section Update

variable {g h : HTTPGenerator} {n : Int}

theorem update_header (hg : g.sendType = .header ∧ (g.headerRemainingBytes.toNat : Int) ≥ n) :
    g.msgUpdateSendMetadata n =
      if ((UInt32.ofInt (g.headerRemainingBytes.toNat - n)).toNat : Int) = n then
        (false, { g with headerPointer := g.headerPointer.add n, sendType := .body, headerRemainingBytes := 0 })
      else
        (false, { g with
          headerPointer := g.headerPointer.add n
          headerRemainingBytes := UInt32.ofInt (g.headerRemainingBytes.toNat - n) }) := by
  rw [msgUpdateSendMetadata, if_pos hg]

theorem update_body (hg : g.sendType = .body ∧ (g.bodyRemainingBytes.toNat : Int) ≥ n) :
    g.msgUpdateSendMetadata n =
      if ((UInt32.ofInt (g.bodyRemainingBytes.toNat - n)).toNat : Int) = n then
        (true, { g with bodyPointer := g.bodyPointer.add n, bodyRemainingBytes := 0 })
      else
        (false, { g with
          bodyPointer := g.bodyPointer.add n
          bodyRemainingBytes := UInt32.ofInt (g.bodyRemainingBytes.toNat - n) }) := by
  have hheader : ¬ (g.sendType = .header ∧ (g.headerRemainingBytes.toNat : Int) ≥ n) := by
    rw [hg.1]
    exact fun hh => SendType.noConfusion hh.1
  rw [msgUpdateSendMetadata, if_neg hheader, if_pos hg]

theorem update_refused (hheader : ¬ (g.sendType = .header ∧ (g.headerRemainingBytes.toNat : Int) ≥ n))
    (hbody : ¬ (g.sendType = .body ∧ (g.bodyRemainingBytes.toNat : Int) ≥ n)) :
    g.msgUpdateSendMetadata n = (false, g) := by
  rw [msgUpdateSendMetadata, if_neg hheader, if_neg hbody]

/-- The two results of `MsgUpdateSendMetadata` are the same, and the generators stay alike. -/
theorem Alike.update {p : Phase} (a : Alike p g h) (hp : p.generated = true)
    (hset : g.sendType = .body → p.bodySet = true) :
    (g.msgUpdateSendMetadata n).1 = (h.msgUpdateSendMetadata n).1 ∧
      Alike (p.next (.updateSendMetadata n)) (g.msgUpdateSendMetadata n).2 (h.msgUpdateSendMetadata n).2 := by
  obtain ⟨hrem, text, hg, hh, hle⟩ := a.header hp
  by_cases hheader : g.sendType = .header ∧ (g.headerRemainingBytes.toNat : Int) ≥ n
  · have hheader' : h.sendType = .header ∧ (h.headerRemainingBytes.toNat : Int) ≥ n := by
      rwa [← a.sendType, ← hrem]
    have hnew := toNat_ofInt_le (x := g.headerRemainingBytes.toNat - n) (by omega)
    rw [update_header hheader, update_header hheader', ← hrem]
    split
    · refine ⟨rfl, a.agree (fun g => HTTPGenerator.cleared { g with
        headerPointer := g.headerPointer.add n, sendType := .body }) fun _ => rfl, a.bodyRemainingBytes, a.bodyRegion,
        a.headerRegion, fun _ => ⟨rfl, text, hg, hh, ?_⟩⟩
      simp only [Pointer.add, UInt32.toNat_zero]
      omega
    · refine ⟨rfl, a.agree (fun g => HTTPGenerator.cleared { g with headerPointer := g.headerPointer.add n })
        fun _ => rfl, a.bodyRemainingBytes, a.bodyRegion, a.headerRegion, fun _ => ⟨rfl, text, hg, hh, ?_⟩⟩
      simp only [Pointer.add]
      omega
  · have hheader' : ¬ (h.sendType = .header ∧ (h.headerRemainingBytes.toNat : Int) ≥ n) := by
      rwa [← a.sendType, ← hrem]
    by_cases hbody : g.sendType = .body ∧ (g.bodyRemainingBytes.toNat : Int) ≥ n
    · have hbodyrem := a.bodyRemainingBytes (hset hbody.1)
      have hbody' : h.sendType = .body ∧ (h.bodyRemainingBytes.toNat : Int) ≥ n := by
        rwa [← a.sendType, ← hbodyrem]
      have hcleared := a.agree (fun g => HTTPGenerator.cleared { g with bodyPointer := g.bodyPointer.add n })
        fun _ => rfl
      rw [update_body hbody, update_body hbody', ← hbodyrem]
      split
      · exact ⟨rfl, hcleared, fun _ => rfl, a.bodyRegion, a.headerRegion, a.header⟩
      · exact ⟨rfl, hcleared, fun _ => rfl, a.bodyRegion, a.headerRegion, a.header⟩
    · have hbody' : ¬ (h.sendType = .body ∧ (h.bodyRemainingBytes.toNat : Int) ≥ n) := by
        rintro ⟨htype, hn⟩
        have htype' := a.sendType.trans htype
        exact hbody ⟨htype', by rwa [a.bodyRemainingBytes (hset htype')]⟩
      rw [update_refused hheader hbody, update_refused hheader' hbody']
      exact ⟨rfl, a.cleared, a.bodyRemainingBytes, a.bodyRegion, a.headerRegion, a.header⟩

end Update

theorem Generated.cleared {g g' : HTTPGenerator} {it : Iteration g.headers} (h : g.Generated it g') :
    g'.cleared = g.cleared := by
  conv_rhs => rw [← h.eq]
  rfl

/-- `MsgGenerate` makes the texts in the two buffers the same. -/
theorem Alike.generated {p : Phase} {g h g' h' : HTTPGenerator} (a : Alike p g h)
    (hstart : g.headerPointer.offset = 0) {order : (m : StringMap) → Iteration m}
    (hg : g.msgGenerate (order g.headers) = some g') (hh : h.msgGenerate (order h.headers) = some h') :
    Alike (p.next (.generate order)) g' h' := by
  have hmessage := a.message order
  have hgen := HTTPGenerator.generated hg
  have hgen' := HTTPGenerator.generated hh
  have hrem := hgen.headerRemainingBytes
  have hrem' := hgen'.headerRemainingBytes
  have hbuffer' := hgen'.headerBuffer
  rw [← hmessage] at hrem' hbuffer'
  have hheader : g'.headerPointer = g.headerPointer := (congrArg HTTPGenerator.headerPointer hgen.eq :)
  have hbody : g'.bodyPointer = g.bodyPointer := (congrArg HTTPGenerator.bodyPointer hgen.eq :)
  refine ⟨hgen.cleared.trans (a.cleared.trans hgen'.cleared.symm), fun hset => ?_, ?_, ?_, fun _ => ?_⟩
  · have hbodyrem : g'.bodyRemainingBytes = g.bodyRemainingBytes :=
      (congrArg HTTPGenerator.bodyRemainingBytes hgen.eq :)
    have hbodyrem' : h'.bodyRemainingBytes = h.bodyRemainingBytes :=
      (congrArg HTTPGenerator.bodyRemainingBytes hgen'.eq :)
    rw [hbodyrem, hbodyrem', a.bodyRemainingBytes hset]
  · rw [hbody]
    exact a.bodyRegion
  · rw [hheader]
    exact a.headerRegion
  · refine ⟨hrem.trans hrem'.symm, _, hgen.headerBuffer, hbuffer', ?_⟩
    have hle : (UInt32.ofNat (g.message (order g.headers)).length).toNat ≤ (g.message (order g.headers)).length := by
      rw [UInt32.toNat_ofNat']
      exact Nat.mod_le _ _
    refine Int.le_of_eq ?_
    rw [hheader, hstart, hrem, List.length_take, Nat.min_eq_left hle, Int.zero_add]

end HTTPGenerator

/-! ## Runs -/

namespace Observed

/-- The two objects are alike, and the same has been seen of them. -/
def Alike (p : Phase) (s t : Observed) : Prop :=
  HTTPGenerator.Alike p s.generator t.generator ∧ s.observations = t.observations

theorem Alike.call {p : Phase} {s t : Observed} (a : Alike p s t) (hp : p.generator = s.generator) (c : Call)
    (hc : p.Allowed c) :
    Agree (Alike (p.next c)) (fun s t => s.observations = t.observations) (s.call c) (t.call c) := by
  obtain ⟨a, hobs⟩ := a
  cases c with
  | prepare q => exact ⟨a.perform q hc, hobs⟩
  | addDateHeader currentDate => exact ⟨a.perform (.addHeader (ofString "Date") currentDate) trivial, hobs⟩
  | setSendStatus sendStatus =>
      exact ⟨⟨a.agree (fun g => (g.msgSetSendStatus sendStatus).cleared) fun _ => rfl, a.bodyRemainingBytes,
        a.bodyRegion, a.headerRegion, a.header⟩, hobs⟩
  | generate order =>
      have hmessage := a.message order
      have hstart : s.generator.headerPointer.offset = 0 := by rw [← hp]; exact hc
      simp only [Observed.call]
      cases hg : s.generator.msgGenerate (order s.generator.headers) with
      | none =>
          have hh : t.generator.msgGenerate (order t.generator.headers) = none := by
            rw [HTTPGenerator.msgGenerate_eq_none_iff] at hg ⊢
            rwa [← hmessage]
          rw [hh]
          exact ⟨rfl, hobs⟩
      | some g' =>
          cases hh : t.generator.msgGenerate (order t.generator.headers) with
          | none =>
              rw [HTTPGenerator.msgGenerate_eq_none_iff, ← hmessage] at hh
              exact absurd (HTTPGenerator.generated hg).fits (Nat.not_le.mpr hh)
          | some h' => exact ⟨a.generated hstart hg hh, hobs⟩
  | getSendMetadata =>
      obtain ⟨hmeta, hread⟩ := a.metadata hc.1 (by rw [← hp]; exact hc.2)
      refine ⟨⟨a.cleared, a.bodyRemainingBytes, a.bodyRegion, a.headerRegion, a.header⟩, ?_⟩
      simp only [see, ← hmeta, ← hread, hobs]
  | updateSendMetadata n =>
      obtain ⟨hreturned, halike⟩ := a.update (n := n) hc.1 (by rw [← hp]; exact hc.2)
      have hseen : s.observations ++ [.updated (s.generator.msgUpdateSendMetadata n).1] =
          t.observations ++ [.updated (t.generator.msgUpdateSendMetadata n).1] := by rw [hreturned, hobs]
      exact ⟨halike, hseen⟩
  | getSendStatus =>
      have hstatus : s.generator.msgGetSendStatus = t.generator.msgGetSendStatus :=
        a.agree HTTPGenerator.msgGetSendStatus fun _ => rfl
      refine ⟨⟨a.cleared, a.bodyRemainingBytes, a.bodyRegion, a.headerRegion, a.header⟩, ?_⟩
      simp only [see, ← hstatus, hobs]

/-- What a call makes of the generator does not depend on what was seen before. -/
theorem generator_call (s : Observed) (c : Call) :
    (stateOf (Observed.call ⟨s.generator, []⟩ c)).generator = (stateOf (s.call c)).generator := by
  cases c with
  | generate order =>
      simp only [Observed.call]
      cases s.generator.msgGenerate (order s.generator.headers) <;> rfl
  | _ => rfl

end Observed

/-- The entries as they came in. -/
def inOrder (m : StringMap) : Iteration m := ⟨m.entries, .refl _⟩

/-- A response that is generated and not sent. -/
def withBody (body : Bytes) : List Call :=
  [.prepare .reset, .prepare (.setBodyRef ⟨.body body, 0⟩ (UInt32.ofNat body.length)), .generate inOrder]

/-- A response with a body of its own, of which the first bytes are sent. -/
def ownBody : List Call :=
  [.prepare (.setStatus 404 (ofString "Not Found")), .prepare (.setBodyRef ⟨.body (ofString "xy"), 0⟩ 2),
    .generate inOrder, .getSendMetadata, .updateSendMetadata 45, .updateSendMetadata 0, .getSendMetadata,
    .getSendStatus]

/-- A response without a body. The 38 bytes of its header are sent in two halves. -/
def noBody : List Call := [.generate inOrder, .updateSendMetadata 19, .getSendMetadata]

-- The other way to fail: `MsgGenerate` once more, while the pointer is not at the start of the buffer.
example : (results (after Sender.blank []) [.prepare .reset, .generate inOrder, .updateSendMetadata 1,
      .generate inOrder, .getSendMetadata]).getLast? ≠
    (results (after Sender.blank [.prepare .reset, .prepare (.setStatus 404 (ofString "Not Found")), .generate inOrder])
      [.prepare .reset, .generate inOrder, .updateSendMetadata 1, .generate inOrder, .getSendMetadata]).getLast? := by
  decide +kernel

end FalconAS.Http

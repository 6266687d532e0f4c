import FalconAS.Http.Cpp23
import FalconAS.Http.Lemmas.Walk
import FalconAS.Http.Lemmas.Examine

/-!
# Announced and received lengths

A recorded POST request has as many bytes of payload as its `Content-Length` header says, as long as no announced
length is changed by the narrowing to `uint16_t`, and no POST block inside a pending body is rejected: such a block
leaves its properties behind, and the pending body is then recorded under them.
-/

namespace FalconAS.Http

open FalconAS.Seq FalconAS.Machine

namespace HTTPParser

variable {R : Readers}

/-- The `Content-Length` header is a digit string that denotes `n`, and `n` is not above the maximum. -/
def Announces (headers : StringMap) (n : Nat) : Prop :=
  ∃ value ∈ headers.find httpHeaderContentLength, value ≠ [] ∧ isDigits value = true ∧ decimal value = n ∧
    n ≤ httpPostMaxContentLength.toNat

instance (headers : StringMap) (n : Nat) : Decidable (Announces headers n) :=
  inferInstanceAs (Decidable (∃ value ∈ headers.find httpHeaderContentLength, _))

def WellAnnounced (r : RequestProperties) : Prop := r.httpMethod = .post → Announces r.requestHeaders r.payload.length

instance (r : RequestProperties) : Decidable (WellAnnounced r) := inferInstanceAs (Decidable (_ → _))

/-- The request under which the pending body will be recorded announces the length that is waited for. -/
def Promised (p : HTTPParser) : Prop :=
  p.requestProperties.httpMethod = .post → Announces p.requestProperties.requestHeaders p.postContentLength.toNat

/-- The announced length gets below the maximum by its own value only. -/
def NotNarrowed (R : Readers) (b : Bytes) : Prop :=
  ∀ props ∈ posted R b, ∀ v ∈ announced props, v % 65536 ≤ 2048 → v ≤ 2048

instance (R : Readers) (b : Bytes) : Decidable (NotNarrowed R b) :=
  inferInstanceAs (Decidable (∀ props ∈ posted R b, ∀ v ∈ announced props, v % 65536 ≤ 2048 → v ≤ 2048))

def rejectsPOST (R : Readers) (b : Bytes) : Bool :=
  match examine R b with
  | .rejected props _ => props.httpMethod == .post
  | _ => false

/-- No block of the call has a length that the narrowing changes to one within the maximum, and while a body is
pending no POST block is rejected. -/
def KeepsAnnounced (R : Readers) (p : HTTPParser) (c : Chunk) : Prop :=
  (∀ x ∈ p.visited R c, NotNarrowed R x.1) ∧
    (p.postWaitContentLength = true → ∀ x ∈ p.visited R c, rejectsPOST R x.1 = false)

instance (R : Readers) (p : HTTPParser) (c : Chunk) : Decidable (KeepsAnnounced R p c) :=
  inferInstanceAs (Decidable (_ ∧ _))

theorem httpPostMaxContentLength_toNat : httpPostMaxContentLength.toNat = 2048 := by decide

theorem announces_of_post {b : Bytes} {props : RequestProperties} {length : UInt16}
    (hv : examine R b = .post props length) (hn : NotNarrowed R b) : Announces props.requestHeaders length.toNat := by
  obtain ⟨hp, v, ha, _, hmod, rfl⟩ := examine_post_iff.mp hv
  have hle : v ≤ 2048 := hn props hp v ha hmod
  unfold announced at ha
  cases hf : props.requestHeaders.find httpHeaderContentLength with
  | none => rw [hf] at ha; cases ha
  | some value =>
      simp only [hf, Option.ite_none_right_eq_some, Option.some.injEq] at ha
      obtain ⟨hd, rfl⟩ := ha
      rw [toNat_ofNat_lt (by omega)]
      refine ⟨value, hf, ?_, hd, rfl, hle.trans_eq httpPostMaxContentLength_toNat.symm⟩
      obtain ⟨_, base, hbase, _, _, rfl⟩ := posted_eq_some hp
      rw [(parseRequestProperties_frame hbase).1] at hf
      exact R.value_ne_nil b _ (StringMap.mem_of_find hf)

theorem Announces.withPayload {props : RequestProperties} {n : Nat} {bytes : Bytes}
    (h : Announces props.requestHeaders n) (hn : n ≤ bytes.length) :
    WellAnnounced { props with payload := bytes.take n } := by
  intro _
  rw [List.length_take, Nat.min_eq_left hn]
  exact h

theorem Walks.announced {single : Bool} {k : Nat} {bs : List Bytes} {p : HTTPParser}
    {tr : List (Bytes × List Bytes)} {r : Result Unit} (h : Walks R single k bs p tr r)
    (hreq : ∀ q ∈ p.requests, WellAnnounced q) (hnar : ∀ x ∈ tr, NotNarrowed R x.1)
    (hwait : p.postWaitContentLength = true → p.Promised ∧ ∀ x ∈ tr, rejectsPOST R x.1 = false) :
    (∀ q ∈ (stateOf r).requests, WellAnnounced q) ∧
      ∀ p', r = .ok () p' → p'.postWaitContentLength = true → p'.Promised := by
  induction h with
  | done => exact ⟨hreq, by rintro _ ⟨⟩ hw; exact (hwait hw).1⟩
  | empty _ => exact ⟨hreq, by rintro _ ⟨⟩ hw; exact (hwait hw).1⟩
  | @rejected k b bs p props length hv =>
      refine ⟨hreq, ?_⟩
      rintro _ ⟨⟩ hw hpost
      have hno := (hwait hw).2 (b.drop k, bs) (List.mem_singleton_self _)
      simp only [reject_requestProperties] at hpost
      simp [rejectsPOST, hv, hpost] at hno
  | throws _ => exact ⟨hreq, by rintro _ ⟨⟩⟩
  | get hv _ ih =>
      have hget := (examine_get_spec hv).1
      refine ih (List.forall_mem_append.mpr ⟨hreq, List.forall_mem_singleton.mpr ?_⟩)
        (fun x hx => hnar x (List.mem_cons_of_mem _ hx)) fun hw => ⟨?_, ?_⟩
      · intro hpost
        rw [hget] at hpost
        cases hpost
      · intro hpost
        rw [record_requestProperties, hget] at hpost
        cases hpost
      · exact fun x hx => (hwait hw).2 x (List.mem_cons_of_mem _ hx)
  | ready _ hv hle =>
      have ha := announces_of_post hv (hnar _ (List.mem_singleton_self _))
      refine ⟨List.forall_mem_append.mpr ⟨hreq, List.forall_mem_singleton.mpr (ha.withPayload hle)⟩, ?_⟩
      rintro _ ⟨⟩ _ _
      exact ha
  | wait _ hv _ =>
      have ha := announces_of_post hv (hnar _ (List.mem_singleton_self _))
      refine ⟨hreq, ?_⟩
      rintro _ ⟨⟩ _ _
      exact ha
  | last _ _ => exact ⟨hreq, by rintro _ ⟨⟩⟩
  | next _ hv hle _ ih =>
      have ha := announces_of_post hv (hnar _ List.mem_cons_self)
      refine ih (List.forall_mem_append.mpr ⟨hreq, List.forall_mem_singleton.mpr (ha.withPayload hle)⟩)
        (fun x hx => hnar x (List.mem_cons_of_mem _ hx))
        fun hw => ⟨fun _ => ha, ?_⟩
      exact fun x hx => (hwait hw).2 x (List.mem_cons_of_mem _ hx)
  | short _ hv _ =>
      have ha := announces_of_post hv (hnar _ (List.mem_singleton_self _))
      refine ⟨hreq, ?_⟩
      rintro _ ⟨⟩ _ _
      exact ha

structure KeptPromises (p : HTTPParser) : Prop where
  requests : ∀ r ∈ p.requests, WellAnnounced r
  pending : p.postWaitContentLength = true → p.Promised

theorem call_announced {p : HTTPParser} {c : Chunk} (hp : p.KeptPromises) (hk : KeepsAnnounced R p c) :
    (∀ r ∈ (stateOf (call R p c)).requests, WellAnnounced r) ∧
      ∀ p', call R p c = .ok () p' → p'.KeptPromises := by
  rcases call_cases R p c with ⟨_, heq, _⟩ | ⟨_, hc, heq, _⟩ | ⟨_, _, rest, _, hw⟩
  · rw [heq]
    exact ⟨hp.requests, by rintro _ ⟨⟩; exact hp⟩
  · rw [heq]
    have hall : ∀ r ∈ (p.completed c).requests, WellAnnounced r := by
      rw [completed_requests]
      refine List.forall_mem_append.mpr ⟨hp.requests, List.forall_mem_singleton.mpr fun hpost => ?_⟩
      exact (hp.pending hc.1 hpost).withPayload hc.2 hpost
    exact ⟨hall, by rintro _ ⟨⟩; exact ⟨hall, fun hf => Bool.noConfusion hf⟩⟩
  · obtain ⟨hall, hpend⟩ := hw.announced hp.requests hk.1 fun hwait => ⟨hp.pending hwait, hk.2 hwait⟩
    refine ⟨hall, fun p' hp' => ⟨?_, hpend p' hp'⟩⟩
    rw [hp'] at hall
    exact hall

/-- In a run whose calls all meet `KeepsAnnounced`, every recorded POST request has the payload it announces. -/
theorem run_wellAnnounced (R : Readers) {bufferSize : UInt16} {cs : List Chunk}
    (hP : Along (appendBuffer R) (KeepsAnnounced R) (fresh bufferSize) cs) :
    ∀ r ∈ (stateOf (run (appendBuffer R) (fresh bufferSize) cs)).requests, WellAnnounced r := by
  rw [requests_run_appendBuffer]
  refine run_stateOf (I := KeptPromises) (J := fun p => ∀ r ∈ p.requests, WellAnnounced r)
    (fun p hp => hp.requests) (fun p c p' hp hk h => (call_announced hp hk).2 p' h)
    (fun p c e p' hp hk h => ?_) ?_ (along_appendBuffer.mp hP)
  · have hall := (call_announced hp hk).1
    rw [h] at hall
    exact hall
  · exact ⟨fun r hr => absurd hr List.not_mem_nil, fun hf => Bool.noConfusion hf⟩

def postThree : Chunk := ⟨ofString "POST / HTTP/1.1\r\nContent-Length: 3\r\n\r\nabc", by decide⟩

def postWrapped : Chunk := ⟨ofString "POST / HTTP/1.1\r\nContent-Length: 65537\r\n\r\na", by decide⟩

def postForty : Chunk := ⟨ofString "POST / HTTP/1.1\r\nContent-Length: 40\r\n\r\n", by decide⟩

def postBare : Chunk := ⟨ofString "POST / HTTP/1.1\r\n\r\n", by decide⟩

def fortyBytes : Chunk := ⟨List.replicate 40 97, by decide⟩

theorem run_wellAnnounced_three :
    (stateOf (run (appendBuffer Cpp23.readers) (fresh 4096) [postThree])).requests.length = 1 ∧
    ∀ r ∈ (stateOf (run (appendBuffer Cpp23.readers) (fresh 4096) [postThree])).requests, WellAnnounced r :=
  ⟨by decide +kernel, run_wellAnnounced Cpp23.readers (by decide +kernel)⟩

/-- A request that announces 65537 bytes is recorded with one. A request that announces 40 bytes is recorded
without its headers, as those of the block inside its body. -/
theorem recorded_not_wellAnnounced :
    (∃ r ∈ (stateOf (run (appendBuffer Cpp23.readers) (fresh 4096) [postWrapped])).requests,
      ¬ WellAnnounced r) ∧
    ∃ r ∈ (stateOf (run (appendBuffer Cpp23.readers) (fresh 4096) [postForty, postBare, fortyBytes])).requests,
      ¬ WellAnnounced r := by
  constructor
  · decide +kernel
  · decide +kernel

end HTTPParser

end FalconAS.Http

import Mathlib.Data.List.Nodup
import Mathlib.Data.List.Infix

/-!
# Data of the HTTP parser

The constants of `lib/http/httpconstants.hpp` and the records of `lib/http/httpparser.hpp`. The constants header
of the C++11 parser has the same values. A C++ `string` is a list of bytes.
-/

namespace FalconAS.Http

abbrev Bytes := List UInt8

def ofString (s : String) : Bytes := s.toList.map Char.toUInt8

/-! ## Constants -/

inductive HTTPVersion where
  | unknown
  | v11
  deriving DecidableEq, Repr

inductive HTTPMethod where
  | other
  | get
  | post
  deriving DecidableEq, Repr

def httpPostMaxContentLength : UInt16 := 2048

def httpErrorBadRequest : UInt16 := 400

def cr : UInt8 := 13

def lf : UInt8 := 10

def crlf : Bytes := [cr, lf]

def http11EndMarker : Bytes := [cr, lf, cr, lf]

def httpHeaderContentLength : Bytes := ofString "Content-Length"

theorem http11EndMarker_ne_nil : http11EndMarker ≠ [] := by decide

theorem not_marker_nil : ¬ http11EndMarker <:+: [] := by decide

/-! ## Maps -/

/-- `unordered_map<string, string>`: entries with pairwise distinct keys. They are kept in the order in which
they came in; the order in which C++ iterates over them is left open. -/
structure StringMap where
  entries : List (Bytes × Bytes)
  nodup : (entries.map Prod.fst).Nodup
  deriving DecidableEq

namespace StringMap

def empty : StringMap := ⟨[], List.nodup_nil⟩

def find (m : StringMap) (key : Bytes) : Option Bytes := m.entries.lookup key

/-- `emplace`: a key that is already there keeps its value. -/
def emplace (m : StringMap) (key value : Bytes) : StringMap :=
  if h : key ∈ m.entries.map Prod.fst then m
  else ⟨m.entries ++ [(key, value)], by
    rw [List.map_append, List.nodup_append]
    refine ⟨m.nodup, by simp, ?_⟩
    rintro a ha b hb rfl
    simp only [List.map_cons, List.map_nil, List.mem_singleton] at hb
    exact h (hb ▸ ha)⟩

def emplaceAll (m : StringMap) (pairs : List (Bytes × Bytes)) : StringMap :=
  pairs.foldl (fun m p => m.emplace p.1 p.2) m

/-- `==` of two maps: the same value under every key. -/
def Same (m m' : StringMap) : Prop := ∀ key, m.find key = m'.find key

theorem emplace_of_mem {m : StringMap} {key value : Bytes} (h : key ∈ m.entries.map Prod.fst) :
    m.emplace key value = m := by
  simp only [emplace, h, ↓reduceDIte]

theorem entries_emplace_of_not_mem {m : StringMap} {key value : Bytes}
    (h : key ∉ m.entries.map Prod.fst) : (m.emplace key value).entries = m.entries ++ [(key, value)] := by
  simp only [emplace, h, ↓reduceDIte]

@[ext] theorem ext {m m' : StringMap} (h : m.entries = m'.entries) : m = m' := by
  cases m; cases m'; cases h; rfl

@[simp] theorem emplaceAll_nil (m : StringMap) : m.emplaceAll [] = m := rfl

@[simp] theorem emplaceAll_cons (m : StringMap) (p : Bytes × Bytes) (ps : List (Bytes × Bytes)) :
    m.emplaceAll (p :: ps) = (m.emplace p.1 p.2).emplaceAll ps := rfl

theorem mem_entries_emplaceAll {m : StringMap} {ps : List (Bytes × Bytes)} {e : Bytes × Bytes}
    (h : e ∈ (m.emplaceAll ps).entries) : e ∈ m.entries ∨ e ∈ ps := by
  induction ps generalizing m with
  | nil => exact Or.inl h
  | cons p ps ih =>
      rw [emplaceAll_cons] at h
      rcases ih h with hm | hps
      · by_cases hk : p.1 ∈ m.entries.map Prod.fst
        · rw [emplace_of_mem hk] at hm
          exact Or.inl hm
        · rw [entries_emplace_of_not_mem hk, List.mem_append, List.mem_singleton] at hm
          rcases hm with hm | rfl
          · exact Or.inl hm
          · exact Or.inr List.mem_cons_self
      · exact Or.inr (List.mem_cons_of_mem _ hps)

theorem entries_emplaceAll {m : StringMap} {ps : List (Bytes × Bytes)}
    (h : ((m.entries ++ ps).map Prod.fst).Nodup) : (m.emplaceAll ps).entries = m.entries ++ ps := by
  induction ps generalizing m with
  | nil => simp
  | cons p ps ih =>
      have hk : p.1 ∉ m.entries.map Prod.fst := by
        rw [List.map_append, List.nodup_append] at h
        exact fun hm => h.2.2 _ hm _ (by simp) rfl
      rw [emplaceAll_cons, ih, entries_emplace_of_not_mem hk, List.append_assoc]
      · rfl
      · rwa [entries_emplace_of_not_mem hk, List.append_assoc]

theorem find_of_mem {m : StringMap} {key value : Bytes} (h : (key, value) ∈ m.entries) :
    m.find key = some value := by
  obtain ⟨l₁, l₂, heq⟩ := List.append_of_mem h
  have hnodup := m.nodup
  rw [heq, List.map_append, List.nodup_append] at hnodup
  refine List.lookup_eq_some_iff.mpr ⟨l₁, l₂, heq, fun p hp => bne_iff_ne.mpr fun hk => ?_⟩
  exact hnodup.2.2 p.1 (List.mem_map_of_mem hp) key (by simp) hk.symm

/-- Of several pairs with one key the first counts, and only if the key is not in the map yet. -/
theorem find_emplaceAll (m : StringMap) (ps : List (Bytes × Bytes)) (key : Bytes) :
    (m.emplaceAll ps).find key = (m.find key).or (ps.lookup key) := by
  induction ps generalizing m with
  | nil => simp
  | cons p ps ih =>
      rw [emplaceAll_cons, ih, List.lookup_cons]
      by_cases hp : p.1 ∈ m.entries.map Prod.fst
      · rw [emplace_of_mem hp]
        cases hk : key == p.1 with
        | true =>
            obtain ⟨e, he, heq⟩ := List.mem_map.mp hp
            have hfind : m.find key = some e.2 := find_of_mem (by rwa [eq_of_beq hk, ← heq])
            rw [hfind]
            rfl
        | false => rfl
      · have hfind : (m.emplace p.1 p.2).find key = (m.find key).or ([p].lookup key) := by
          rw [find, entries_emplace_of_not_mem hp, List.lookup_append]
          rfl
        rw [hfind, Option.or_assoc, List.lookup_cons]
        cases key == p.1 with
        | true => rfl
        | false => rfl

@[simp] theorem find_empty (key : Bytes) : empty.find key = none := rfl

theorem mem_of_find {m : StringMap} {key value : Bytes} (h : m.find key = some value) :
    (key, value) ∈ m.entries := by
  unfold find at h
  obtain ⟨l₁, l₂, heq, _⟩ := List.lookup_eq_some_iff.mp h
  rw [heq]
  simp

end StringMap

/-! ## Requests -/

structure RequestProperties where
  httpVersion : HTTPVersion
  httpMethod : HTTPMethod
  requestHeaders : StringMap
  url : Bytes
  payload : Bytes
  urlParams : StringMap
  deriving DecidableEq

/-- The default values that `_processRequestProperties` starts a block with. -/
def RequestProperties.unparsed : RequestProperties where
  httpVersion := .unknown
  httpMethod := .other
  requestHeaders := .empty
  url := ofString "/"
  payload := []
  urlParams := .empty

/-- Two requests are equal as C++ compares them, member by member and map by map. -/
structure RequestProperties.Same (r r' : RequestProperties) : Prop where
  httpVersion : r.httpVersion = r'.httpVersion
  httpMethod : r.httpMethod = r'.httpMethod
  requestHeaders : r.requestHeaders.Same r'.requestHeaders
  url : r.url = r'.url
  payload : r.payload = r'.payload
  urlParams : r.urlParams.Same r'.urlParams

inductive Exception where
  | outOfRangeAt
  | outOfRangeStoi
  | invalidArgumentStoi
  deriving DecidableEq, Repr

/-- The bytes at `BufferRef` together with their number `RecvBytes`, a `uint16_t`. -/
structure Chunk where
  bytes : Bytes
  recvBytes_lt : bytes.length < UInt16.size

def stream (cs : List Chunk) : Bytes := (cs.map Chunk.bytes).flatten

@[simp] theorem stream_nil : stream [] = [] := rfl

@[simp] theorem stream_cons (c : Chunk) (cs : List Chunk) : stream (c :: cs) = c.bytes ++ stream cs := rfl

theorem stream_append (cs cs' : List Chunk) : stream (cs ++ cs') = stream cs ++ stream cs' := by
  simp [stream]

end FalconAS.Http

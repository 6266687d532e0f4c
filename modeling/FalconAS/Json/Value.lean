import FalconAS.Json.Tokens

/-!
# JSON values

Every value has one sequence of tokens. `read` finds the value of a text if the text spells the tokens of one, and no
text spells the tokens of two.
-/

namespace FalconAS.Json

/-- The members of an object are kept in the order of the text, repeated names included. -/
inductive Value where
  | word (w : Word)
  | string (cs : List Char)
  | array (values : List Value)
  | object (members : List (List Char × Value))

/-! ## Tokens of a value -/

mutual

def Value.tokens : Value → List Token
  | .word w => [.word w]
  | .string cs => [.string cs]
  | .array [] => [.structural .beginArray, .structural .endArray]
  | .array (v :: vs) => .structural .beginArray :: (v.tokens ++ moreValues vs)
  | .object [] => [.structural .beginObject, .structural .endObject]
  | .object ((name, v) :: ms) =>
      .structural .beginObject :: .string name :: .structural .nameSeparator :: (v.tokens ++ moreMembers ms)

/-- The rest of an array, behind one of its values. -/
def moreValues : List Value → List Token
  | [] => [.structural .endArray]
  | v :: vs => .structural .valueSeparator :: (v.tokens ++ moreValues vs)

/-- The rest of an object, behind one of its members. -/
def moreMembers : List (List Char × Value) → List Token
  | [] => [.structural .endObject]
  | (name, v) :: ms =>
      .structural .valueSeparator :: .string name :: .structural .nameSeparator :: (v.tokens ++ moreMembers ms)

end

/-! ## Reading -/

mutual

def parseValue : Nat → List Token → Option (Value × List Token)
  | 0, _ => none
  | fuel + 1, ts =>
      match ts with
      | .word w :: ts => some (.word w, ts)
      | .string cs :: ts => some (.string cs, ts)
      | .structural .beginArray :: .structural .endArray :: ts => some (.array [], ts)
      | .structural .beginArray :: ts => both (parseValue fuel) (parseValues fuel) (fun v vs => .array (v :: vs)) ts
      | .structural .beginObject :: .structural .endObject :: ts => some (.object [], ts)
      | .structural .beginObject :: .string name :: .structural .nameSeparator :: ts =>
          both (parseValue fuel) (parseMembers fuel) (fun v ms => .object ((name, v) :: ms)) ts
      | _ => none

def parseValues : Nat → List Token → Option (List Value × List Token)
  | 0, _ => none
  | fuel + 1, ts =>
      match ts with
      | .structural .endArray :: ts => some ([], ts)
      | .structural .valueSeparator :: ts => both (parseValue fuel) (parseValues fuel) List.cons ts
      | _ => none

def parseMembers : Nat → List Token → Option (List (List Char × Value) × List Token)
  | 0, _ => none
  | fuel + 1, ts =>
      match ts with
      | .structural .endObject :: ts => some ([], ts)
      | .structural .valueSeparator :: .string name :: .structural .nameSeparator :: ts =>
          both (parseValue fuel) (parseMembers fuel) (fun v ms => (name, v) :: ms) ts
      | _ => none

end

/-- The value of a text. -/
def read (s : List UInt8) : Option Value := do
  let ts ← lex (s.length + 1) s
  let x ← parseValue (ts.length + 1) ts
  if x.2 = [] then some x.1 else none

/-- What is read with the fuel is read from its tokens. -/
structure Sound (fuel : Nat) : Prop where
  value : ∀ {ts v rest}, parseValue fuel ts = some (v, rest) → ts = v.tokens ++ rest
  values : ∀ {ts vs rest}, parseValues fuel ts = some (vs, rest) → ts = moreValues vs ++ rest
  members : ∀ {ts ms rest}, parseMembers fuel ts = some (ms, rest) → ts = moreMembers ms ++ rest

theorem sound (fuel : Nat) : Sound fuel := by
  induction fuel with
  | zero => exact ⟨nofun, nofun, nofun⟩
  | succ fuel ih =>
      refine ⟨fun {ts v rest} h => ?_, fun {ts vs rest} h => ?_, fun {ts ms rest} h => ?_⟩
      · rw [parseValue.eq_def] at h
        simp only at h
        split at h
        · cases h
          rfl
        · cases h
          rfl
        · cases h
          rfl
        · obtain ⟨v, mid, vs, hv, hvs, rfl⟩ := both_eq_some_iff.mp h
          rw [ih.value hv, ih.values hvs]
          simp [Value.tokens]
        · cases h
          rfl
        · obtain ⟨v, mid, ms, hv, hms, rfl⟩ := both_eq_some_iff.mp h
          rw [ih.value hv, ih.members hms]
          simp [Value.tokens]
        · cases h
      · rw [parseValues.eq_def] at h
        simp only at h
        split at h
        · cases h
          rfl
        · obtain ⟨v, mid, vs, hv, hvs, rfl⟩ := both_eq_some_iff.mp h
          rw [ih.value hv, ih.values hvs]
          simp [moreValues]
        · cases h
      · rw [parseMembers.eq_def] at h
        simp only at h
        split at h
        · cases h
          rfl
        · obtain ⟨v, mid, ms, hv, hms, rfl⟩ := both_eq_some_iff.mp h
          rw [ih.value hv, ih.members hms]
          simp [moreMembers]
        · cases h

theorem Value.head_tokens_ne (v : Value) (rest : List Token) :
    (v.tokens ++ rest).head? ≠ some (.structural .endArray) := by
  cases v with
  | word _ => simp [Value.tokens]
  | string _ => simp [Value.tokens]
  | array vs =>
      cases vs with
      | nil => simp [Value.tokens]
      | cons v vs => simp [Value.tokens]
  | object ms =>
      cases ms with
      | nil => simp [Value.tokens]
      | cons m ms => simp [Value.tokens]

theorem parseValue_beginArray {fuel : Nat} {ts : List Token} (h : ts.head? ≠ some (.structural .endArray)) :
    parseValue (fuel + 1) (.structural .beginArray :: ts) =
      both (parseValue fuel) (parseValues fuel) (fun v vs => .array (v :: vs)) ts := by
  cases ts with
  | nil => rfl
  | cons t ts =>
      cases t with
      | structural c =>
          cases c with
          | endArray => exact absurd rfl h
          | beginArray => rfl
          | beginObject => rfl
          | endObject => rfl
          | nameSeparator => rfl
          | valueSeparator => rfl
      | string _ => rfl
      | word _ => rfl

theorem parseValue_beginObject (fuel : Nat) (name : List Char) (ts : List Token) :
    parseValue (fuel + 1) (.structural .beginObject :: .string name :: .structural .nameSeparator :: ts) =
      both (parseValue fuel) (parseMembers fuel) (fun v ms => .object ((name, v) :: ms)) ts := rfl

theorem parseMembers_valueSeparator (fuel : Nat) (name : List Char) (ts : List Token) :
    parseMembers (fuel + 1) (.structural .valueSeparator :: .string name :: .structural .nameSeparator :: ts) =
      both (parseValue fuel) (parseMembers fuel) (fun v ms => (name, v) :: ms) ts := rfl

mutual

theorem parseValue_tokens : (v : Value) → (rest : List Token) → (fuel : Nat) → v.tokens.length < fuel →
    parseValue fuel (v.tokens ++ rest) = some (v, rest)
  | _, _, 0, h => absurd h (Nat.not_lt_zero _)
  | .word _, _, _ + 1, _ => rfl
  | .string _, _, _ + 1, _ => rfl
  | .array [], _, _ + 1, _ => rfl
  | .array (v :: vs), rest, fuel + 1, h => by
      rw [Value.tokens] at h ⊢
      simp only [List.length_cons, List.length_append] at h
      rw [List.cons_append, List.append_assoc, parseValue_beginArray (v.head_tokens_ne _)]
      exact both_eq_some_iff.mpr ⟨v, _, vs, parseValue_tokens v _ fuel (by omega),
        parseValues_tokens vs rest fuel (by omega), rfl⟩
  | .object [], _, _ + 1, _ => rfl
  | .object ((name, v) :: ms), rest, fuel + 1, h => by
      rw [Value.tokens] at h ⊢
      simp only [List.length_cons, List.length_append] at h
      simp only [List.cons_append, List.append_assoc, parseValue_beginObject]
      exact both_eq_some_iff.mpr ⟨v, _, ms, parseValue_tokens v _ fuel (by omega),
        parseMembers_tokens ms rest fuel (by omega), rfl⟩

theorem parseValues_tokens : (vs : List Value) → (rest : List Token) → (fuel : Nat) → (moreValues vs).length < fuel →
    parseValues fuel (moreValues vs ++ rest) = some (vs, rest)
  | _, _, 0, h => absurd h (Nat.not_lt_zero _)
  | [], _, _ + 1, _ => rfl
  | v :: vs, rest, fuel + 1, h => by
      rw [moreValues] at h ⊢
      simp only [List.length_cons, List.length_append] at h
      simp only [List.cons_append, List.append_assoc]
      exact both_eq_some_iff.mpr ⟨v, _, vs, parseValue_tokens v _ fuel (by omega),
        parseValues_tokens vs rest fuel (by omega), rfl⟩

theorem parseMembers_tokens : (ms : List (List Char × Value)) → (rest : List Token) → (fuel : Nat) →
    (moreMembers ms).length < fuel → parseMembers fuel (moreMembers ms ++ rest) = some (ms, rest)
  | _, _, 0, h => absurd h (Nat.not_lt_zero _)
  | [], _, _ + 1, _ => rfl
  | (name, v) :: ms, rest, fuel + 1, h => by
      rw [moreMembers] at h ⊢
      simp only [List.length_cons, List.length_append] at h
      simp only [List.cons_append, List.append_assoc, parseMembers_valueSeparator]
      exact both_eq_some_iff.mpr ⟨v, _, ms, parseValue_tokens v _ fuel (by omega),
        parseMembers_tokens ms rest fuel (by omega), rfl⟩

end

/-- Reading gives a value if and only if the text spells its tokens. -/
theorem read_eq_some_iff {s : List UInt8} {v : Value} : read s = some v ↔ Spells s v.tokens := by
  constructor
  · intro h
    obtain ⟨ts, hlex, h⟩ := Option.bind_eq_some_iff.mp h
    obtain ⟨⟨v', rest⟩, hparse, h⟩ := Option.bind_eq_some_iff.mp h
    split at h
    · rename_i hrest
      obtain rfl : rest = [] := hrest
      obtain rfl : v' = v := Option.some.inj h
      have hts := (sound _).value hparse
      rw [List.append_nil] at hts
      exact hts ▸ lex_eq_some_iff.mp hlex
    · cases h
  · intro h
    have hparse := parseValue_tokens v [] (v.tokens.length + 1) (Nat.lt_succ_self _)
    rw [List.append_nil] at hparse
    rw [read, lex_eq_some_iff.mpr h]
    simp [hparse]

-- A number, a literal name, an escape, a character outside the basic plane; and a number with a leading zero.
example : (read "[-0.5e+1, null,\"\\n\\uD83D\\uDE00\"]".toUTF8.data.toList).map Value.tokens =
    some (Value.array [.word (.number "-0.5e+1".toUTF8.data.toList), .word .null,
      .string ['\n', Char.ofNat 0x1F600]]).tokens ∧ read "[01]".toUTF8.data.toList = none := by decide +kernel

end FalconAS.Json

import Mathlib.Data.List.Basic

/-!
# The tokens of a JSON text

JSON over bytes. A string is a sequence of characters, each written in UTF-8 as it is or as an escape sequence. A
text spells a sequence of tokens if it consists of them, with white space between. `lex` reads the tokens.
-/

namespace FalconAS.Json

/-- One reader after another. Each gives what it has read and the rest. -/
def both {τ α β γ : Type*} (p : List τ → Option (α × List τ)) (q : List τ → Option (β × List τ)) (f : α → β → γ)
    (s : List τ) : Option (γ × List τ) :=
  (p s).bind fun x => (q x.2).map fun y => (f x.1 y.1, y.2)

theorem both_eq_some_iff {τ α β γ : Type*} {p : List τ → Option (α × List τ)} {q : List τ → Option (β × List τ)}
    {f : α → β → γ} {s rest : List τ} {c : γ} :
    both p q f s = some (c, rest) ↔ ∃ a mid b, p s = some (a, mid) ∧ q mid = some (b, rest) ∧ f a b = c := by
  simp only [both, Option.bind_eq_some_iff, Option.map_eq_some_iff, Prod.mk.injEq]
  constructor
  · rintro ⟨⟨a, mid⟩, hp, ⟨b, _⟩, hq, rfl, rfl⟩
    exact ⟨a, mid, b, hp, hq, rfl⟩
  · rintro ⟨a, mid, b, hp, hq, rfl⟩
    exact ⟨(a, mid), hp, (b, rest), hq, rfl, rfl⟩

/-! ## UTF-8 -/

/-- The bytes of some characters. -/
def encode (cs : List Char) : List UInt8 := cs.flatMap String.utf8EncodeChar

@[simp] theorem encode_nil : encode [] = [] := rfl

@[simp] theorem encode_cons (c : Char) (cs : List Char) : encode (c :: cs) = String.utf8EncodeChar c ++ encode cs := rfl

def decodeChar (s : List UInt8) : Option (Char × List UInt8) :=
  (s.toByteArray.utf8DecodeChar? 0).map fun c => (c, s.drop (String.utf8EncodeChar c).length)

theorem decodeChar_eq_some_iff {s rest : List UInt8} {c : Char} :
    decodeChar s = some (c, rest) ↔ s = String.utf8EncodeChar c ++ rest := by
  constructor
  · intro h
    obtain ⟨c', hc, heq⟩ := Option.map_eq_some_iff.mp h
    obtain ⟨rfl, rfl⟩ := Prod.mk.inj heq
    obtain ⟨l, hl⟩ := ByteArray.exists_of_utf8DecodeChar?_eq_some hc
    have hs : s = String.utf8EncodeChar c' ++ l.data.toList := by
      have hdata := congrArg (fun b => b.data.toList) hl
      simpa using hdata
    rw [hs, List.drop_left]
  · rintro rfl
    rw [decodeChar, List.toByteArray_append, ByteArray.utf8DecodeChar?_utf8EncodeChar_append, Option.map_some,
      List.drop_left]

theorem utf8EncodeChar_cases (c : Char) :
    (c.toNat < 128 ∧ String.utf8EncodeChar c = [UInt8.ofNat c.toNat]) ∨
      (128 ≤ c.toNat ∧ ∀ b ∈ String.utf8EncodeChar c, 128 ≤ b) := by
  have hval : c.val.toNat = c.toNat := rfl
  unfold String.utf8EncodeChar
  simp only [hval]
  split
  · exact .inl ⟨by omega, rfl⟩
  · refine .inr ⟨by omega, ?_⟩
    split
    · simp [UInt8.le_iff_toNat_le]
      omega
    · split
      · simp [UInt8.le_iff_toNat_le]
        omega
      · simp [UInt8.le_iff_toNat_le]
        omega

theorem length_utf8EncodeChar_le (c : Char) : (String.utf8EncodeChar c).length ≤ 4 := by
  rw [String.length_utf8EncodeChar]
  exact c.utf8Size_le_four

/-! ## Characters of a string -/

/-- A character that may be written as it is. -/
def Unescaped (c : Char) : Prop := 32 ≤ c.toNat ∧ c ≠ '"' ∧ c ≠ '\\'

instance : DecidablePred Unescaped := fun _ => inferInstanceAs (Decidable (_ ∧ _ ∧ _))

def simpleEscape : UInt8 → Option Char
  | 34 => some '"'
  | 92 => some '\\'
  | 47 => some '/'
  | 98 => some (Char.ofNat 8)
  | 102 => some (Char.ofNat 12)
  | 110 => some '\n'
  | 114 => some '\r'
  | 116 => some '\t'
  | _ => none

def hexDigit (b : UInt8) : Option Nat :=
  if 48 ≤ b ∧ b ≤ 57 then some (b.toNat - 48)
  else if 65 ≤ b ∧ b ≤ 70 then some (b.toNat - 55)
  else if 97 ≤ b ∧ b ≤ 102 then some (b.toNat - 87)
  else none

/-- Four hexadecimal digits. -/
def codeUnit : List UInt8 → Option Nat
  | [b₁, b₂, b₃, b₄] => do
      let d₁ ← hexDigit b₁
      let d₂ ← hexDigit b₂
      let d₃ ← hexDigit b₃
      let d₄ ← hexDigit b₄
      some (d₁ * 4096 + d₂ * 256 + d₃ * 16 + d₄)
  | _ => none

def isHigh (n : Nat) : Bool := 0xD800 ≤ n && n < 0xDC00

def isLow (n : Nat) : Bool := 0xDC00 ≤ n && n < 0xE000

/-- The character of two surrogates. -/
def ofSurrogates (high low : Nat) : Char := Char.ofNat (0x10000 + (high - 0xD800) * 0x400 + (low - 0xDC00))

/-- How a character may be written. A surrogate by itself is no character. -/
inductive SpellsChar : List UInt8 → Char → Prop where
  | unescaped {c : Char} : Unescaped c → SpellsChar (String.utf8EncodeChar c) c
  | escape {b : UInt8} {c : Char} : simpleEscape b = some c → SpellsChar [92, b] c
  | unicode {t : List UInt8} {n : Nat} : codeUnit t = some n → isHigh n = false → isLow n = false →
      SpellsChar (92 :: 117 :: t) (Char.ofNat n)
  | surrogates {t t' : List UInt8} {high low : Nat} : codeUnit t = some high → isHigh high = true →
      codeUnit t' = some low → isLow low = true →
      SpellsChar (92 :: 117 :: t ++ 92 :: 117 :: t') (ofSurrogates high low)

/-- What follows `\u`. -/
def readUnicode (s : List UInt8) : Option (Char × List UInt8) := do
  let n ← codeUnit (s.take 4)
  if isHigh n then
    match s.drop 4 with
    | 92 :: 117 :: s' => do
        let low ← codeUnit (s'.take 4)
        if isLow low then some (ofSurrogates n low, s'.drop 4) else none
    | _ => none
  else if isLow n then none
  else some (Char.ofNat n, s.drop 4)

def readChar : List UInt8 → Option (Char × List UInt8)
  | 92 :: 117 :: s => readUnicode s
  | 92 :: b :: s => (simpleEscape b).map fun c => (c, s)
  | s => (decodeChar s).filter fun p => Unescaped p.1

theorem length_of_codeUnit {t : List UInt8} {n : Nat} (h : codeUnit t = some n) : t.length = 4 := by
  unfold codeUnit at h
  split at h
  · rfl
  · cases h

theorem codeUnit_take {t : List UInt8} {n : Nat} (h : codeUnit t = some n) (rest : List UInt8) :
    codeUnit ((t ++ rest).take 4) = some n ∧ (t ++ rest).drop 4 = rest := by
  rw [List.take_left' (length_of_codeUnit h), List.drop_left' (length_of_codeUnit h)]
  exact ⟨h, rfl⟩

theorem spells_of_readUnicode {s rest : List UInt8} {c : Char} (h : readUnicode s = some (c, rest)) :
    ∃ t, SpellsChar (92 :: 117 :: t) c ∧ s = t ++ rest := by
  obtain ⟨n, hn, h⟩ := Option.bind_eq_some_iff.mp h
  split at h
  · rename_i hhigh
    split at h
    · rename_i s' hdrop
      obtain ⟨low, hlow, h⟩ := Option.bind_eq_some_iff.mp h
      split at h
      · rename_i hislow
        obtain ⟨rfl, rfl⟩ := Prod.mk.inj (Option.some.inj h)
        refine ⟨s.take 4 ++ 92 :: 117 :: s'.take 4, .surrogates hn hhigh hlow hislow, ?_⟩
        rw [List.append_assoc, List.cons_append, List.cons_append, List.take_append_drop, ← hdrop,
          List.take_append_drop]
      · cases h
    · cases h
  · rename_i hhigh
    split at h
    · cases h
    · rename_i hislow
      cases h
      exact ⟨s.take 4, .unicode hn (by simpa using hhigh) (by simpa using hislow), (List.take_append_drop 4 s).symm⟩

/-- The bytes of a character that may be written as it is are none that would end the string or begin an escape. -/
theorem Unescaped.not_mem {c : Char} (h : Unescaped c) :
    34 ∉ String.utf8EncodeChar c ∧ 92 ∉ String.utf8EncodeChar c := by
  rcases utf8EncodeChar_cases c with ⟨hlt, heq⟩ | ⟨_, hge⟩
  · have hbyte : ∀ d : Char, d.toNat < 128 → UInt8.ofNat d.toNat = UInt8.ofNat c.toNat → c = d := by
      intro d hd hcd
      have hnat := congrArg UInt8.toNat hcd
      rw [UInt8.toNat_ofNat', UInt8.toNat_ofNat', Nat.mod_eq_of_lt (by omega), Nat.mod_eq_of_lt (by omega)] at hnat
      exact Char.toNat_inj.mp hnat.symm
    rw [heq, List.mem_singleton, List.mem_singleton]
    exact ⟨fun hb => h.2.1 (hbyte '"' (by decide) hb), fun hb => h.2.2 (hbyte '\\' (by decide) hb)⟩
  · exact ⟨fun hb => absurd (hge _ hb) (by decide), fun hb => absurd (hge _ hb) (by decide)⟩

theorem Unescaped.head_ne {c : Char} (h : Unescaped c) (rest : List UInt8) :
    (String.utf8EncodeChar c ++ rest).head? ≠ some 34 ∧ (String.utf8EncodeChar c ++ rest).head? ≠ some 92 := by
  rw [List.head?_append_of_ne_nil _ String.utf8EncodeChar_ne_nil]
  exact ⟨fun hhead => h.not_mem.1 (List.mem_of_head? hhead), fun hhead => h.not_mem.2 (List.mem_of_head? hhead)⟩

theorem readChar_eq_some_iff {s rest : List UInt8} {c : Char} :
    readChar s = some (c, rest) ↔ ∃ t, SpellsChar t c ∧ s = t ++ rest := by
  constructor
  · intro h
    unfold readChar at h
    split at h
    · obtain ⟨t, ht, rfl⟩ := spells_of_readUnicode h
      exact ⟨_, ht, rfl⟩
    · obtain ⟨c', hc, heq⟩ := Option.map_eq_some_iff.mp h
      cases heq
      exact ⟨_, .escape hc, rfl⟩
    · obtain ⟨hdecode, hc⟩ := Option.filter_eq_some_iff.mp h
      exact ⟨_, .unescaped (of_decide_eq_true hc), decodeChar_eq_some_iff.mp hdecode⟩
  · rintro ⟨t, ht, rfl⟩
    cases ht with
    | unescaped hc =>
        have hdecode := decodeChar_eq_some_iff.mpr (rfl : String.utf8EncodeChar c ++ rest = _)
        unfold readChar
        split
        · rename_i heq
          exact absurd (congrArg List.head? heq) (hc.head_ne rest).2
        · rename_i heq
          exact absurd (congrArg List.head? heq) (hc.head_ne rest).2
        · rw [hdecode]
          simp [hc]
    | escape hc =>
        have hu : ∀ b, simpleEscape b = some c → b ≠ 117 := by
          rintro b hb rfl
          cases hb
        simp [readChar, hc, hu]
    | unicode ht hhigh hlow =>
        obtain ⟨htake, hdrop⟩ := codeUnit_take ht rest
        simp [readChar, readUnicode, htake, hdrop, hhigh, hlow]
    | @surrogates t t' _ _ ht hhigh ht' hlow =>
        obtain ⟨htake, hdrop⟩ := codeUnit_take ht (92 :: 117 :: (t' ++ rest))
        obtain ⟨htake', hdrop'⟩ := codeUnit_take ht' rest
        simp [readChar, readUnicode, htake, hdrop, hhigh, htake', hdrop', hlow]

theorem SpellsChar.ne_nil {t : List UInt8} {c : Char} (h : SpellsChar t c) : t ≠ [] := by
  cases h with
  | unescaped _ => exact String.utf8EncodeChar_ne_nil
  | escape _ => simp
  | unicode _ _ _ => simp
  | surrogates _ _ _ _ => simp

/-- No character is written with a quotation mark in front. -/
theorem SpellsChar.head_ne {t : List UInt8} {c : Char} (h : SpellsChar t c) (rest : List UInt8) :
    (t ++ rest).head? ≠ some 34 := by
  cases h with
  | unescaped hc => exact (hc.head_ne rest).1
  | escape _ => simp
  | unicode _ _ _ => simp
  | surrogates _ _ _ _ => simp

/-! ## Strings -/

/-- What may stand between the quotation marks for a sequence of characters. -/
inductive SpellsString : List UInt8 → List Char → Prop where
  | nil : SpellsString [] []
  | cons {t s : List UInt8} {c : Char} {cs : List Char} : SpellsChar t c → SpellsString s cs →
      SpellsString (t ++ s) (c :: cs)

theorem SpellsString.of_unescaped {cs : List Char} (h : ∀ c ∈ cs, Unescaped c) : SpellsString (encode cs) cs := by
  induction cs with
  | nil => exact .nil
  | cons c cs ih =>
      rw [List.forall_mem_cons] at h
      exact .cons (.unescaped h.1) (ih h.2)

/-- The characters up to the closing quotation mark. -/
def readString : Nat → List UInt8 → Option (List Char × List UInt8)
  | 0, _ => none
  | fuel + 1, s =>
      if s.head? = some 34 then some ([], s.tail)
      else both readChar (readString fuel) List.cons s

theorem spells_of_readString {fuel : Nat} {s rest : List UInt8} {cs : List Char}
    (h : readString fuel s = some (cs, rest)) : ∃ t, SpellsString t cs ∧ s = t ++ 34 :: rest := by
  induction fuel generalizing s cs with
  | zero => cases h
  | succ fuel ih =>
      rw [readString] at h
      split at h
      · rename_i hhead
        obtain ⟨s', rfl⟩ := List.head?_eq_some_iff.mp hhead
        cases h
        exact ⟨[], .nil, rfl⟩
      · obtain ⟨c, s', cs', hchar, hstring, rfl⟩ := both_eq_some_iff.mp h
        obtain ⟨t, ht, rfl⟩ := readChar_eq_some_iff.mp hchar
        obtain ⟨u, hu, rfl⟩ := ih hstring
        exact ⟨t ++ u, .cons ht hu, (List.append_assoc _ _ _).symm⟩

theorem readString_of_spells {t : List UInt8} {cs : List Char} (h : SpellsString t cs) (rest : List UInt8) {fuel : Nat}
    (hfuel : t.length < fuel) : readString fuel (t ++ 34 :: rest) = some (cs, rest) := by
  obtain ⟨fuel, rfl⟩ := Nat.exists_eq_succ_of_ne_zero (Nat.ne_of_gt (Nat.zero_lt_of_lt hfuel))
  induction h generalizing fuel with
  | nil => simp [readString]
  | @cons t s c cs hchar _ ih =>
      have hpos := List.length_pos_iff.mpr hchar.ne_nil
      rw [List.length_append] at hfuel
      obtain ⟨fuel, rfl⟩ := Nat.exists_eq_add_of_lt (by omega : s.length < fuel)
      have hread := readChar_eq_some_iff.mpr ⟨t, hchar, (rfl : t ++ (s ++ 34 :: rest) = _)⟩
      rw [List.append_assoc, readString, if_neg (hchar.head_ne _)]
      exact both_eq_some_iff.mpr ⟨c, _, cs, hread, ih _ (by omega), rfl⟩

/-! ## Words -/

/-- Where the reading of a number is. -/
inductive NumberState where
  | start
  | minus
  | zero
  | integer
  | point
  | fraction
  | exponent
  | sign
  | power
  deriving DecidableEq

def isDigit (b : UInt8) : Bool := 48 ≤ b && b ≤ 57

/-- `-`, `.`, `e` and `E`, and `+` are bytes 45, 46, 101 and 69, and 43. -/
def NumberState.step : NumberState → UInt8 → Option NumberState
  | .start, b =>
      if b = 45 then some .minus
      else if b = 48 then some .zero
      else if isDigit b then some .integer
      else none
  | .minus, b => if b = 48 then some .zero else if isDigit b then some .integer else none
  | .zero, b => if b = 46 then some .point else if b = 101 ∨ b = 69 then some .exponent else none
  | .integer, b =>
      if isDigit b then some .integer
      else if b = 46 then some .point
      else if b = 101 ∨ b = 69 then some .exponent
      else none
  | .point, b => if isDigit b then some .fraction else none
  | .fraction, b => if isDigit b then some .fraction else if b = 101 ∨ b = 69 then some .exponent else none
  | .exponent, b => if b = 43 ∨ b = 45 then some .sign else if isDigit b then some .power else none
  | .sign, b => if isDigit b then some .power else none
  | .power, b => if isDigit b then some .power else none

def NumberState.accepts : NumberState → Bool
  | .zero | .integer | .fraction | .power => true
  | _ => false

def isNumber (t : List UInt8) : Bool := (t.foldlM NumberState.step .start).any NumberState.accepts

/-- What is written without quotation marks. A number is kept as it is written. -/
inductive Word where
  | null
  | false
  | true
  | number (text : List UInt8)
  deriving DecidableEq

def Word.bytes : Word → List UInt8
  | .null => "null".toUTF8.data.toList
  | .false => "false".toUTF8.data.toList
  | .true => "true".toUTF8.data.toList
  | .number text => text

def Word.ofBytes (t : List UInt8) : Option Word :=
  if t = Word.null.bytes then some .null
  else if t = Word.false.bytes then some .false
  else if t = Word.true.bytes then some .true
  else if isNumber t then some (.number t)
  else none

theorem Word.bytes_of_ofBytes {t : List UInt8} {w : Word} (h : Word.ofBytes t = some w) : w.bytes = t := by
  unfold ofBytes at h
  split_ifs at h with hnull hfalse htrue
  · cases h
    exact hnull.symm
  · cases h
    exact hfalse.symm
  · cases h
    exact htrue.symm
  · cases h
    rfl

/-! ## Tokens -/

inductive Structural where
  | beginArray
  | beginObject
  | endArray
  | endObject
  | nameSeparator
  | valueSeparator
  deriving DecidableEq

def Structural.byte : Structural → UInt8
  | .beginArray => 91
  | .beginObject => 123
  | .endArray => 93
  | .endObject => 125
  | .nameSeparator => 58
  | .valueSeparator => 44

def Structural.ofByte : UInt8 → Option Structural
  | 91 => some .beginArray
  | 123 => some .beginObject
  | 93 => some .endArray
  | 125 => some .endObject
  | 58 => some .nameSeparator
  | 44 => some .valueSeparator
  | _ => none

theorem Structural.ofByte_eq_some_iff {b : UInt8} {c : Structural} : ofByte b = some c ↔ b = c.byte := by
  constructor
  · intro h
    unfold ofByte at h
    split at h
    all_goals cases h
    all_goals rfl
  · rintro rfl
    cases c <;> rfl

def isBlank (b : UInt8) : Bool := b = 32 || b = 9 || b = 10 || b = 13

def isWordByte (b : UInt8) : Bool := !isBlank b && (Structural.ofByte b).isNone && b ≠ 34

inductive Token where
  | structural (c : Structural)
  | string (cs : List Char)
  | word (w : Word)
  deriving DecidableEq

/-- The text consists of the tokens, with white space before, between and behind them. A word is as long as it can
be. -/
inductive Spells : List UInt8 → List Token → Prop where
  | nil : Spells [] []
  | blank {b : UInt8} {s : List UInt8} {ts : List Token} : isBlank b = true → Spells s ts → Spells (b :: s) ts
  | structural {s : List UInt8} {ts : List Token} (c : Structural) : Spells s ts →
      Spells (c.byte :: s) (.structural c :: ts)
  | string {t s : List UInt8} {cs : List Char} {ts : List Token} : SpellsString t cs → Spells s ts →
      Spells (34 :: (t ++ 34 :: s)) (.string cs :: ts)
  | word {b : UInt8} {t s : List UInt8} {w : Word} {ts : List Token} : Word.ofBytes (b :: t) = some w →
      (∀ b' ∈ b :: t, isWordByte b' = true) → (∀ b' ∈ s.head?, isWordByte b' = false) → Spells s ts →
      Spells (b :: t ++ s) (.word w :: ts)

def lex : Nat → List UInt8 → Option (List Token)
  | 0, _ => none
  | _ + 1, [] => some []
  | fuel + 1, b :: s =>
      if isBlank b then lex fuel s
      else
        match Structural.ofByte b with
        | some c => (lex fuel s).map (.structural c :: ·)
        | none =>
            if b = 34 then do
              let (cs, s) ← readString fuel s
              (lex fuel s).map (.string cs :: ·)
            else do
              let w ← Word.ofBytes (b :: s.takeWhile isWordByte)
              (lex fuel (s.dropWhile isWordByte)).map (.word w :: ·)

theorem spells_of_lex {fuel : Nat} {s : List UInt8} {ts : List Token} (h : lex fuel s = some ts) : Spells s ts := by
  induction fuel generalizing s ts with
  | zero => cases h
  | succ fuel ih =>
      cases s with
      | nil =>
          cases h
          exact .nil
      | cons b s =>
          rw [lex] at h
          split at h
          · rename_i hblank
            exact .blank hblank (ih h)
          · rename_i hblank
            split at h
            · rename_i c hc
              obtain ⟨ts', hts, rfl⟩ := Option.map_eq_some_iff.mp h
              rw [Structural.ofByte_eq_some_iff.mp hc]
              exact .structural c (ih hts)
            · rename_i hc
              split at h
              · rename_i hquote
                obtain ⟨⟨cs, s'⟩, hstring, h⟩ := Option.bind_eq_some_iff.mp h
                obtain ⟨ts', hts, rfl⟩ := Option.map_eq_some_iff.mp h
                obtain ⟨t, ht, rfl⟩ := spells_of_readString hstring
                rw [hquote]
                exact .string ht (ih hts)
              · rename_i hquote
                obtain ⟨w, hw, h⟩ := Option.bind_eq_some_iff.mp h
                obtain ⟨ts', hts, rfl⟩ := Option.map_eq_some_iff.mp h
                have hb : isWordByte b = true := by simp [isWordByte, hblank, hc, hquote]
                have hhead : ∀ b' ∈ (s.dropWhile isWordByte).head?, isWordByte b' = false := by
                  intro b' hb'
                  have hnot := List.head?_dropWhile_not isWordByte s
                  rw [Option.mem_def.mp hb'] at hnot
                  simpa using hnot
                have hspells := Spells.word hw
                  (List.forall_mem_cons.mpr ⟨hb, List.all_eq_true.mp List.all_takeWhile⟩) hhead (ih hts)
                rw [List.cons_append, List.takeWhile_append_dropWhile] at hspells
                exact hspells

theorem isWordByte_iff {b : UInt8} :
    isWordByte b = true ↔ isBlank b = false ∧ Structural.ofByte b = none ∧ b ≠ 34 := by
  simp [isWordByte, and_assoc]

theorem isBlank_byte (c : Structural) : isBlank c.byte = false := by
  cases c <;> rfl

theorem lex_of_spells {s : List UInt8} {ts : List Token} (h : Spells s ts) {fuel : Nat} (hfuel : s.length ≤ fuel) :
    lex (fuel + 1) s = some ts := by
  induction h generalizing fuel with
  | nil => rfl
  | blank hblank _ ih =>
      obtain ⟨fuel, rfl⟩ := Nat.exists_eq_add_of_le' (Nat.le_trans (Nat.le_add_left 1 _) hfuel)
      rw [lex, if_pos hblank]
      exact ih (Nat.le_of_succ_le_succ hfuel)
  | structural c _ ih =>
      obtain ⟨fuel, rfl⟩ := Nat.exists_eq_add_of_le' (Nat.le_trans (Nat.le_add_left 1 _) hfuel)
      have hbyte : Structural.ofByte c.byte = some c := Structural.ofByte_eq_some_iff.mpr rfl
      simp [lex, isBlank_byte, hbyte, ih (Nat.le_of_succ_le_succ hfuel)]
  | @string t s cs ts ht _ ih =>
      obtain ⟨fuel, rfl⟩ := Nat.exists_eq_add_of_le' (Nat.le_trans (Nat.le_add_left 1 _) hfuel)
      simp only [List.length_cons, List.length_append] at hfuel
      have hread : readString (fuel + 1) (t ++ 34 :: s) = some (cs, s) := readString_of_spells ht s (by omega)
      have hblank : isBlank 34 = false := by decide
      have hbyte : Structural.ofByte 34 = none := by decide
      simp [lex, hblank, hbyte, hread, ih (by omega : s.length ≤ fuel)]
  | @word b t s w ts hw hall hhead _ ih =>
      obtain ⟨fuel, rfl⟩ := Nat.exists_eq_add_of_le' (Nat.le_trans (Nat.le_add_left 1 _) hfuel)
      rw [List.length_append, List.length_cons] at hfuel
      rw [List.forall_mem_cons] at hall
      obtain ⟨hblank, hbyte, hquote⟩ := isWordByte_iff.mp hall.1
      have hcut : (t ++ s).takeWhile isWordByte = t ∧ (t ++ s).dropWhile isWordByte = s := by
        rw [List.takeWhile_append_of_pos hall.2, List.dropWhile_append_of_pos hall.2]
        cases s with
        | nil => simp
        | cons b' s => simp [hhead b' rfl]
      simp [lex, hblank, hbyte, hquote, hcut, hw, ih (by omega : s.length ≤ fuel)]

/-- A text has at most one sequence of tokens. -/
theorem lex_eq_some_iff {s : List UInt8} {ts : List Token} : lex (s.length + 1) s = some ts ↔ Spells s ts :=
  ⟨spells_of_lex, fun h => lex_of_spells h (Nat.le_refl _)⟩

/-! ## Lengths -/

/-- A character is at least as long as its bytes. It is longer if it is not written as it is. -/
theorem SpellsChar.length_le {t : List UInt8} {c : Char} (h : SpellsChar t c) :
    (String.utf8EncodeChar c).length ≤ t.length ∧ (t.length ≤ (String.utf8EncodeChar c).length → Unescaped c) := by
  have hfour := length_utf8EncodeChar_le c
  cases h with
  | unescaped hc => exact ⟨Nat.le_refl _, fun _ => hc⟩
  | @escape b _ hb =>
      have hone : (String.utf8EncodeChar c).length = 1 := by
        unfold simpleEscape at hb
        split at hb
        all_goals cases hb
        all_goals rfl
      simp [hone]
  | unicode ht _ _ =>
      have hlength := length_of_codeUnit ht
      simp only [List.length_cons]
      omega
  | surrogates ht _ ht' _ =>
      have hlength := length_of_codeUnit ht
      have hlength' := length_of_codeUnit ht'
      simp only [List.length_cons, List.length_append]
      omega

theorem not_mem_of_codeUnit {t : List UInt8} {n : Nat} (h : codeUnit t = some n) : 32 ∉ t := by
  have hblank : hexDigit 32 = none := by decide
  unfold codeUnit at h
  split at h
  · simp only [Option.bind_eq_bind, Option.bind_eq_some_iff] at h
    obtain ⟨d₁, h₁, d₂, h₂, d₃, h₃, d₄, h₄, _⟩ := h
    have hne : ∀ {b d}, hexDigit b = some d → 32 ≠ b := by
      rintro b d hd rfl
      rw [hblank] at hd
      cases hd
    simp [hne h₁, hne h₂, hne h₃, hne h₄]
  · cases h

/-- An escape sequence has no space. -/
theorem SpellsChar.not_mem {t : List UInt8} {c : Char} (h : SpellsChar t c) (hc : 32 ∉ String.utf8EncodeChar c) :
    32 ∉ t := by
  cases h with
  | unescaped _ => exact hc
  | @escape b _ hb =>
      have hne : b ≠ 32 := by
        rintro rfl
        cases hb
      simp [hne.symm]
  | unicode ht _ _ => simp [not_mem_of_codeUnit ht]
  | surrogates ht _ ht' _ => simp [not_mem_of_codeUnit ht, not_mem_of_codeUnit ht']

theorem SpellsString.length_le {t : List UInt8} {cs : List Char} (h : SpellsString t cs) :
    (encode cs).length ≤ t.length ∧ (t.length ≤ (encode cs).length → ∀ c ∈ cs, Unescaped c) := by
  induction h with
  | nil => simp
  | @cons t s c cs hchar _ ih =>
      obtain ⟨hle, hc⟩ := hchar.length_le
      obtain ⟨hles, hcs⟩ := ih
      rw [encode_cons, List.length_append, List.length_append]
      refine ⟨by omega, fun htight => ?_⟩
      exact List.forall_mem_cons.mpr ⟨hc (by omega), hcs (by omega)⟩

theorem SpellsString.not_mem {t : List UInt8} {cs : List Char} (h : SpellsString t cs) (hcs : 32 ∉ encode cs) :
    32 ∉ t := by
  induction h with
  | nil => simp
  | cons hchar _ ih =>
      rw [encode_cons, List.mem_append, not_or] at hcs
      rw [List.mem_append, not_or]
      exact ⟨hchar.not_mem hcs.1, ih hcs.2⟩

/-- The length of a token if it is written as short as can be. -/
def Token.width : Token → Nat
  | .structural _ => 1
  | .string cs => (encode cs).length + 2
  | .word w => w.bytes.length

def width : List Token → Nat
  | [] => 0
  | t :: ts => t.width + width ts

@[simp] theorem width_nil : width [] = 0 := rfl

@[simp] theorem width_cons (t : Token) (ts : List Token) : width (t :: ts) = t.width + width ts := rfl

theorem width_append (ts ts' : List Token) : width (ts ++ ts') = width ts + width ts' := by
  induction ts with
  | nil => simp
  | cons t ts ih => rw [List.cons_append, width_cons, width_cons, ih, Nat.add_assoc]

/-- The number of bytes that are no spaces. -/
def ink (s : List UInt8) : Nat := s.countP (· ≠ 32)

theorem ink_append (s t : List UInt8) : ink (s ++ t) = ink s + ink t := List.countP_append

theorem ink_of_not_mem {s : List UInt8} (h : 32 ∉ s) : ink s = s.length :=
  List.countP_eq_length.mpr fun _ hb => decide_eq_true fun heq => h (heq ▸ hb)

theorem ink_cons {b : UInt8} (h : b ≠ 32) (s : List UInt8) : ink (b :: s) = ink s + 1 :=
  List.countP_cons_of_pos (decide_eq_true h)

theorem ink_space (s : List UInt8) : ink (32 :: s) = ink s := List.countP_cons_of_neg (by decide)

theorem Structural.byte_ne (c : Structural) : c.byte ≠ 32 := by
  cases c <;> decide

/-- If no string holds a space, a text has at least the bytes of its tokens besides spaces. If it has no more, every
string is written as it is. -/
theorem Spells.tight {s : List UInt8} {ts : List Token} (h : Spells s ts)
    (hspace : ∀ cs, Token.string cs ∈ ts → 32 ∉ encode cs) :
    width ts ≤ ink s ∧ (ink s ≤ width ts → ∀ cs, Token.string cs ∈ ts → ∀ c ∈ cs, Unescaped c) := by
  induction h with
  | nil => simp [width, ink]
  | @blank b s ts _ _ ih =>
      obtain ⟨hle, htight⟩ := ih hspace
      have hink : ink s ≤ ink (b :: s) := (List.sublist_cons_self b s).countP_le
      exact ⟨by omega, fun h => htight (by omega)⟩
  | @structural s ts c _ ih =>
      obtain ⟨hle, htight⟩ := ih fun cs hcs => hspace cs (List.mem_cons_of_mem _ hcs)
      rw [ink_cons c.byte_ne, width_cons, Token.width]
      refine ⟨by omega, fun h cs hcs => ?_⟩
      exact htight (by omega) cs ((List.mem_cons.mp hcs).resolve_left (by simp))
  | @string t s cs ts ht _ ih =>
      obtain ⟨hle, htight⟩ := ih fun cs hcs => hspace cs (List.mem_cons_of_mem _ hcs)
      obtain ⟨hlength, hunescaped⟩ := ht.length_le
      have hink : ink (34 :: (t ++ 34 :: s)) = t.length + ink s + 2 := by
        rw [ink_cons (by decide), ink_append, ink_of_not_mem (ht.not_mem (hspace cs List.mem_cons_self)),
          ink_cons (by decide)]
        omega
      rw [hink, width_cons, Token.width]
      refine ⟨by omega, fun h cs' hcs' => ?_⟩
      rcases List.mem_cons.mp hcs' with heq | hcs'
      · cases heq
        exact hunescaped (by omega)
      · exact htight (by omega) cs' hcs'
  | @word b t s w ts hw hall _ _ ih =>
      obtain ⟨hle, htight⟩ := ih fun cs hcs => hspace cs (List.mem_cons_of_mem _ hcs)
      have hblank : 32 ∉ b :: t := fun hmem => absurd (hall 32 hmem) (by decide)
      rw [ink_append, ink_of_not_mem hblank, width_cons, Token.width, Word.bytes_of_ofBytes hw]
      refine ⟨by omega, fun h cs hcs => ?_⟩
      exact htight (by omega) cs ((List.mem_cons.mp hcs).resolve_left (by simp))

end FalconAS.Json

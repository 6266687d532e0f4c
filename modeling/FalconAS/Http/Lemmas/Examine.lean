import FalconAS.Http.Blocks

/-!
# The verdict on a block

The verdict on a POST block depends on two things that can be read off the block: the properties its lines give
(`posted`) and the number its `Content-Length` header announces (`announced`).
-/

namespace FalconAS.Http

open FalconAS.Seq

variable {R : Readers}

/-- The properties of a block whose request line is that of an HTTP/1.1 POST request. -/
def posted (R : Readers) (request : Bytes) : Option RequestProperties :=
  if request.isEmpty then none
  else
    match parseRequestProperties request .unparsed with
    | none => none
    | some props =>
        if props.httpVersion = .v11 ∧ props.httpMethod = .post then
          some { props with requestHeaders := R.parseRequestHeaders request props.requestHeaders }
        else none

/-- The number that the `Content-Length` header denotes, if it is a digit string. -/
def announced (props : RequestProperties) : Option Nat :=
  match props.requestHeaders.find httpHeaderContentLength with
  | none => none
  | some contentLength => if isDigits contentLength then some (decimal contentLength) else none

/-! ## The request line -/

theorem parseRequestProperties_frame {request : Bytes} {base props : RequestProperties}
    (h : parseRequestProperties request base = some props) :
    props.requestHeaders = base.requestHeaders ∧ props.payload = base.payload ∧
      props.urlParams = base.urlParams := by
  unfold parseRequestProperties at h
  dsimp only at h
  split at h
  · cases h
    exact ⟨rfl, rfl, rfl⟩
  · cases h

theorem posted_eq_some {request : Bytes} {props : RequestProperties} (h : posted R request = some props) :
    request ≠ [] ∧ ∃ base, parseRequestProperties request .unparsed = some base ∧ base.httpVersion = .v11 ∧
      base.httpMethod = .post ∧
      props = { base with requestHeaders := R.parseRequestHeaders request base.requestHeaders } := by
  unfold posted at h
  cases he : request.isEmpty with
  | true => simp [he] at h
  | false =>
      refine ⟨List.isEmpty_eq_false_iff.mp he, ?_⟩
      cases hp : parseRequestProperties request .unparsed with
      | none => simp [he, hp] at h
      | some base =>
          by_cases hb : base.httpVersion = .v11 ∧ base.httpMethod = .post
          · simp only [he, Bool.false_eq_true, ↓reduceIte, hp, hb, and_self, Option.some.injEq] at h
            exact ⟨base, rfl, hb.1, hb.2, by rw [← h, hb.1, hb.2]⟩
          · simp [he, hp, hb] at h

/-! ## The announced length -/

theorem ofInt_natCast (v : Nat) : UInt16.ofInt (v : Int) = UInt16.ofNat v := by
  apply UInt16.toNat_inj.mp
  rw [UInt16.ofInt, UInt16.toNat_ofNat', UInt16.toNat_ofNat']
  omega

theorem toNat_ofNat_lt {v : Nat} (h : v < 65536) : (UInt16.ofNat v).toNat = v := by
  rw [UInt16.toNat_ofNat']
  omega

theorem ofNat_gt_max_iff (v : Nat) : UInt16.ofNat v > httpPostMaxContentLength ↔ 2048 < v % 65536 := by
  rw [gt_iff_lt, UInt16.lt_iff_toNat_lt, UInt16.toNat_ofNat']
  exact Iff.rfl

theorem examine_posted {request : Bytes} {props : RequestProperties} (h : posted R request = some props) :
    examine R request =
      match announced props with
      | none => .rejected props none
      | some v =>
          if intMax < v then .throws .outOfRangeStoi props
          else if 2048 < v % 65536 then .rejected props (some (UInt16.ofNat v))
          else .post props (UInt16.ofNat v) := by
  obtain ⟨hne, base, hp, hv, hm, rfl⟩ := posted_eq_some h
  have he : request.isEmpty = false := List.isEmpty_eq_false_iff.mpr hne
  have hhdr := (parseRequestProperties_frame hp).1
  simp only [examine, he, Bool.false_eq_true, ↓reduceIte, hp, hv, ne_eq, not_true_eq_false, hm]
  unfold announce announced
  cases hf : (R.parseRequestHeaders request base.requestHeaders).find httpHeaderContentLength with
  | none => rfl
  | some value =>
      have hval : value ≠ [] := by
        rw [hhdr] at hf
        exact R.value_ne_nil request _ (StringMap.mem_of_find hf)
      cases hd : isDigits value with
      | false => simp only [hd, ↓reduceIte, Bool.false_eq_true]
      | true =>
          simp only [hd, Bool.true_eq_false, ↓reduceIte, stoi_digits hval hd]
          by_cases hmax : decimal value ≤ intMax
          · simp only [hmax, ↓reduceIte, Nat.not_lt.mpr hmax, ofInt_natCast, ofNat_gt_max_iff]
          · simp only [hmax, ↓reduceIte, Nat.lt_of_not_le hmax]

theorem examine_not_posted {request : Bytes} (h : posted R request = none) :
    (∃ props, examine R request = .get props ∧ props.httpMethod = .get ∧ props.payload = []) ∨
      examine R request = .empty ∨ ∃ props, examine R request = .rejected props none := by
  unfold posted at h
  unfold examine
  cases he : request.isEmpty with
  | true => exact Or.inr (Or.inl rfl)
  | false =>
      cases hp : parseRequestProperties request .unparsed with
      | none => exact Or.inr (Or.inr ⟨_, rfl⟩)
      | some base =>
          obtain ⟨_, hpay, _⟩ := parseRequestProperties_frame hp
          by_cases hv : base.httpVersion = .v11
          · cases hm : base.httpMethod with
            | other => exact Or.inr (Or.inr ⟨base, by simp [hv, hm]⟩)
            | get =>
                refine Or.inl ⟨{ base with
                  requestHeaders := R.parseRequestHeaders request base.requestHeaders
                  urlParams := R.parseGETParameter base.url base.urlParams }, ?_, hm, hpay⟩
                simp [hv, hm]
            | post => simp [he, hp, hv, hm] at h
          · exact Or.inr (Or.inr ⟨base, by simp [hv]⟩)

theorem examine_post_iff {request : Bytes} {props : RequestProperties} {length : UInt16} :
    examine R request = .post props length ↔ posted R request = some props ∧
      ∃ v, announced props = some v ∧ v ≤ intMax ∧ v % 65536 ≤ 2048 ∧ length = UInt16.ofNat v := by
  cases hp : posted R request with
  | none =>
      rcases examine_not_posted hp with ⟨_, h, _⟩ | h | ⟨_, h⟩ <;> simp [h]
  | some props' =>
      rw [examine_posted hp]
      cases ha : announced props' with
      | none =>
          simp only [reduceCtorEq, false_iff, not_and, Option.some.injEq]
          rintro rfl ⟨v, hv, _⟩
          rw [ha] at hv
          cases hv
      | some v =>
          simp only [Option.some.injEq]
          by_cases hmax : intMax < v
          · simp only [hmax, ↓reduceIte, reduceCtorEq, false_iff, not_and, not_exists]
            rintro rfl v' hv'
            rw [ha, Option.some.injEq] at hv'
            omega
          · by_cases hmod : 2048 < v % 65536
            · simp only [hmax, hmod, ↓reduceIte, reduceCtorEq, false_iff, not_and, not_exists]
              rintro rfl v' hv'
              rw [ha, Option.some.injEq] at hv'
              omega
            · simp only [hmax, hmod, ↓reduceIte, Verdict.post.injEq]
              constructor
              · rintro ⟨rfl, rfl⟩
                exact ⟨rfl, v, ha, by omega, by omega, rfl⟩
              · rintro ⟨rfl, v', hv', _, _, rfl⟩
                rw [ha, Option.some.injEq] at hv'
                exact ⟨rfl, by rw [hv']⟩

theorem examine_throws_iff {request : Bytes} {e : Exception} {props : RequestProperties} :
    examine R request = .throws e props ↔ e = .outOfRangeStoi ∧ posted R request = some props ∧
      ∃ v, announced props = some v ∧ intMax < v := by
  cases hp : posted R request with
  | none =>
      rcases examine_not_posted hp with ⟨_, h, _⟩ | h | ⟨_, h⟩ <;> simp [h]
  | some props' =>
      rw [examine_posted hp]
      cases ha : announced props' with
      | none =>
          simp only [reduceCtorEq, false_iff, not_and, Option.some.injEq]
          rintro _ rfl ⟨v, hv, _⟩
          rw [ha] at hv
          cases hv
      | some v =>
          by_cases hmax : intMax < v
          · simp only [hmax, ↓reduceIte, Verdict.throws.injEq, Option.some.injEq]
            constructor
            · rintro ⟨rfl, rfl⟩
              exact ⟨rfl, rfl, v, ha, hmax⟩
            · rintro ⟨rfl, rfl, _⟩
              exact ⟨rfl, rfl⟩
          · simp only [hmax, ↓reduceIte, Option.some.injEq]
            constructor
            · intro h
              split at h <;> cases h
            · rintro ⟨_, rfl, v', hv', hlt⟩
              rw [ha, Option.some.injEq] at hv'
              omega

theorem examine_rejected_length {request : Bytes} {props : RequestProperties} {length : UInt16}
    (h : examine R request = .rejected props (some length)) :
    posted R request = some props ∧ ∃ v, announced props = some v ∧ v ≤ intMax ∧ length = UInt16.ofNat v := by
  cases hp : posted R request with
  | none =>
      rcases examine_not_posted hp with ⟨_, h', _⟩ | h' | ⟨_, h'⟩ <;> (rw [h'] at h; cases h)
  | some props' =>
      rw [examine_posted hp] at h
      cases ha : announced props' with
      | none => rw [ha] at h; cases h
      | some v =>
          by_cases hmax : intMax < v
          · simp [ha, hmax] at h
          · by_cases hmod : 2048 < v % 65536
            · simp only [ha, hmax, hmod, ↓reduceIte, Verdict.rejected.injEq, Option.some.injEq] at h
              obtain ⟨rfl, rfl⟩ := h
              exact ⟨rfl, v, ha, Nat.not_lt.mp hmax, rfl⟩
            · simp [ha, hmax, hmod] at h

theorem examine_get_spec {request : Bytes} {props : RequestProperties} (h : examine R request = .get props) :
    props.httpMethod = .get ∧ props.payload = [] := by
  cases hp : posted R request with
  | none =>
      rcases examine_not_posted hp with ⟨_, h', hm, hpay⟩ | h' | ⟨_, h'⟩
      · rw [h', Verdict.get.injEq] at h
        subst h
        exact ⟨hm, hpay⟩
      · rw [h'] at h; cases h
      · rw [h'] at h; cases h
  | some props' =>
      rw [examine_posted hp] at h
      split at h
      · cases h
      · split at h
        · cases h
        · split at h <;> cases h

end FalconAS.Http

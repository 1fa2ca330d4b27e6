import InlaySql.Lib.Fallible
import InlaySql.Sql.Compare

/-!
# Index keys follow the comparison

The order of encoded values is the order the comparison gives the values, except that
integers a double cannot tell apart share a key.
-/

namespace InlaySql.Sql

open Lib

/-! ## Doubles -/

namespace F64

theorem toNat_magnitude (value : F64) : value.magnitude.toNat = value.bits.toNat % 2 ^ 63 := by
  rw [magnitude, UInt64.toNat_and]
  exact Nat.and_two_pow_sub_one_eq_mod _ 63

theorem toNat_and_signBit (bits : UInt64) :
    (bits &&& signBit).toNat = if 2 ^ 63 ≤ bits.toNat then 2 ^ 63 else 0 := by
  have bound := bits.toNat_lt
  rw [UInt64.toNat_and]
  change bits.toNat &&& 2 ^ 63 = _
  rw [Nat.and_two_pow, Nat.testBit_eq_decide_div_mod_eq]
  split
  · rw [decide_eq_true (by omega)]
    rfl
  · rw [decide_eq_false (by omega)]
    rfl

theorem negative_iff (bits : UInt64) : bits &&& signBit ≠ 0 ↔ 2 ^ 63 ≤ bits.toNat := by
  rw [<- not_iff_not, not_not, <- UInt64.toNat_inj, toNat_and_signBit]
  simp

theorem signed_eq (value : F64) : value.signed =
    if 2 ^ 63 ≤ value.bits.toNat then -((value.bits.toNat % 2 ^ 63 : Nat) : Int)
    else ((value.bits.toNat % 2 ^ 63 : Nat) : Int) := by
  rw [signed, toNat_magnitude]
  simp only [negative_iff]

/-- Where a double stands among the codes: the negative ones end below the zeros. -/
def orderCode (signed : Int) : Int := if signed < 0 then 2 ^ 63 - 1 + signed else 2 ^ 63 + signed

theorem orderCode_lt {low high : Int} (lt : low < high) : orderCode low < orderCode high := by
  unfold orderCode
  split <;> split <;> omega

end F64

theorem totalOrder_spec {value : F64} {code : UInt64} (encoded : totalOrder value = .ok code) :
    value.isNan = false ∧ (code.toNat : Int) = F64.orderCode value.signed := by
  unfold totalOrder at encoded
  split at encoded
  · cases encoded
  · rename_i notNan
    refine ⟨by simpa using notNan, ?_⟩
    have isCode := Except.ok.inj encoded
    have bound := value.bits.toNat_lt
    have zero : value.isZero = true ↔ value.bits.toNat % 2 ^ 63 = 0 := by
      rw [F64.isZero, beq_iff_eq, <- UInt64.toNat_inj, F64.toNat_magnitude]
      simp
    have sign : ∀ bits : UInt64, bits.toNat < 2 ^ 63 ->
        (bits ||| F64.signBit).toNat = 2 ^ 63 + bits.toNat := by
      intro bits small
      rw [UInt64.toNat_or, Nat.or_comm]
      exact (Nat.two_pow_add_eq_or_of_lt small 1).symm
    rw [F64.signed_eq, F64.orderCode, <- isCode]
    by_cases isZero : value.isZero = true
    · have magnitude := zero.mp isZero
      simp only [isZero, if_true]
      rw [if_neg (by decide), sign 0 (by decide), magnitude]
      simp
    · have magnitude : value.bits.toNat % 2 ^ 63 ≠ 0 := fun none => isZero (zero.mpr none)
      rw [if_neg isZero]
      by_cases negative : 2 ^ 63 ≤ value.bits.toNat
      · rw [if_pos ((F64.negative_iff _).mpr negative), UInt64.toNat_not]
        simp only [negative, if_true]
        rw [if_pos (by omega)]
        change ((2 ^ 64 - 1 - value.bits.toNat : Nat) : Int) = _
        omega
      · rw [if_neg (fun bad => negative ((F64.negative_iff _).mp bad)), sign _ (by omega)]
        simp only [negative, if_false]
        rw [if_neg (by omega)]
        omega

/-! ## Integers as doubles -/

namespace F64

/-- The bits of a positive integer as a double. -/
def natBits (magnitude : Nat) : Nat :=
  (1023 + magnitude.log2) * 2 ^ 52 + (significand magnitude magnitude.log2 - 2 ^ 52)

section

variable {magnitude : Nat} (positive : magnitude ≠ 0)

include positive

theorem log2_bounds : 2 ^ magnitude.log2 ≤ magnitude ∧ magnitude < 2 ^ (magnitude.log2 + 1) :=
  ⟨Nat.log2_self_le positive, Nat.lt_log2_self⟩

theorem significand_bounds : 2 ^ 52 ≤ significand magnitude magnitude.log2 ∧
      significand magnitude magnitude.log2 ≤ 2 ^ 53 := by
  obtain ⟨low, high⟩ := log2_bounds positive
  unfold significand
  split
  · rename_i small
    have split52 : 2 ^ magnitude.log2 * 2 ^ (52 - magnitude.log2) = 2 ^ 52 := by
      rw [<- Nat.pow_add]
      congr 1
      omega
    constructor
    · rw [<- split52]
      exact Nat.mul_le_mul_right _ low
    · have scaled := Nat.mul_le_mul_right (2 ^ (52 - magnitude.log2)) high.le
      rw [Nat.pow_succ, Nat.mul_right_comm, split52] at scaled
      omega
  · rename_i large
    have splitTop : 2 ^ (magnitude.log2 - 52) * 2 ^ 52 = 2 ^ magnitude.log2 := by
      rw [<- Nat.pow_add]
      congr 1
      omega
    have quotientLow : 2 ^ 52 ≤ magnitude / 2 ^ (magnitude.log2 - 52) := by
      rw [Nat.le_div_iff_mul_le (by positivity), Nat.mul_comm, splitTop]
      exact low
    have quotientHigh : magnitude / 2 ^ (magnitude.log2 - 52) < 2 ^ 53 := by
      rw [Nat.div_lt_iff_lt_mul (by positivity)]
      calc magnitude < 2 ^ magnitude.log2 * 2 := by rwa [<- Nat.pow_succ]
        _ = 2 ^ 53 * 2 ^ (magnitude.log2 - 52) := by rw [<- splitTop]; omega
    simp only
    split <;> omega

end

theorem significand_mono {low high : Nat} (le : low ≤ high) (top : Nat) :
    significand low top ≤ significand high top := by
  unfold significand
  split
  · exact Nat.mul_le_mul_right _ le
  · generalize hUnit : 2 ^ (top - 52) = unit
    have positive : 0 < unit := by
      rw [<- hUnit]
      positivity
    have quotients : low / unit ≤ high / unit := Nat.div_le_div_right le
    have lowParts := Nat.div_add_mod low unit
    have highParts := Nat.div_add_mod high unit
    simp only
    rcases Nat.lt_or_ge (low / unit) (high / unit) with less | more
    · split <;> split <;> omega
    · have same : low / unit = high / unit := by omega
      rw [same] at lowParts ⊢
      split <;> split <;> omega

theorem natBits_mono {low high : Nat} (positive : low ≠ 0) (le : low ≤ high) :
    natBits low ≤ natBits high := by
  have tops : low.log2 ≤ high.log2 := by
    rw [Nat.le_log2 (by omega)]
    exact (Nat.log2_self_le positive).trans le
  obtain ⟨lowLeast, lowMost⟩ := significand_bounds positive
  obtain ⟨highLeast, highMost⟩ := significand_bounds (show high ≠ 0 by omega)
  unfold natBits
  rcases Nat.lt_or_ge low.log2 high.log2 with less | more
  · omega
  · have same : low.log2 = high.log2 := by omega
    have significands := significand_mono le high.log2
    rw [same] at lowLeast ⊢
    omega

theorem signed_ofInt {value : Int} (fits : value.natAbs ≤ 2 ^ 63) :
    (ofInt value).isNan = false ∧ (ofInt value).signed =
      if value = 0 then 0 else if value < 0 then -(natBits value.natAbs : Int)
      else natBits value.natAbs := by
  by_cases zero : value = 0
  · subst zero
    exact ⟨by decide, by decide⟩
  · have positive : value.natAbs ≠ 0 := by omega
    have top : value.natAbs.log2 ≤ 63 := by
      have := Nat.log2_self_le positive
      by_contra more
      have := Nat.pow_le_pow_right (show 0 < 2 by decide) (show 64 ≤ value.natAbs.log2 by omega)
      omega
    have small : natBits value.natAbs ≤ 1087 * 2 ^ 52 := by
      have := (significand_bounds positive).2
      unfold natBits
      omega
    have isBits : (ofInt value).bits.toNat =
        if value < 0 then natBits value.natAbs + 2 ^ 63 else natBits value.natAbs := by
      rw [ofInt, if_neg positive]
      change (UInt64.ofNat (if value < 0 then natBits value.natAbs + 2 ^ 63
        else natBits value.natAbs)).toNat = _
      rw [UInt64.toNat_ofNat']
      split <;> omega
    have magnitude : (ofInt value).bits.toNat % 2 ^ 63 = natBits value.natAbs := by
      rw [isBits]
      split <;> omega
    constructor
    · rw [isNan, decide_eq_false_iff_not, UInt64.lt_iff_toNat_lt, toNat_magnitude, magnitude]
      change ¬ 2047 * 2 ^ 52 < _
      omega
    · rw [signed_eq, magnitude, isBits, if_neg zero]
      split
      · rw [if_pos (by omega)]
      · rw [if_neg (by omega)]

theorem signed_ofInt_mono {low high : Int} (lowFits : low.natAbs ≤ 2 ^ 63)
    (highFits : high.natAbs ≤ 2 ^ 63) (le : low ≤ high) :
    (ofInt low).signed ≤ (ofInt high).signed := by
  rw [(signed_ofInt lowFits).2, (signed_ofInt highFits).2]
  have least : ∀ magnitude : Nat, 0 < natBits magnitude := by
    intro magnitude
    unfold natBits
    omega
  have lowLeast := least low.natAbs
  have highLeast := least high.natAbs
  rcases lt_trichotomy low 0 with lowSign | rfl | lowSign
  · rw [if_neg (by omega), if_pos lowSign]
    rcases lt_trichotomy high 0 with highSign | rfl | highSign
    · rw [if_neg (by omega), if_pos highSign]
      have bits := natBits_mono (show high.natAbs ≠ 0 by omega)
        (show high.natAbs ≤ low.natAbs by omega)
      omega
    · rw [if_pos rfl]
      omega
    · rw [if_neg (by omega), if_neg (by omega)]
      omega
  · rw [if_pos rfl]
    split
    · omega
    · rw [if_neg (by omega)]
      omega
  · rw [if_neg (by omega), if_neg (by omega), if_neg (by omega), if_neg (by omega)]
    have bits := natBits_mono (show low.natAbs ≠ 0 by omega)
      (show low.natAbs ≤ high.natAbs by omega)
    omega

end F64

/-! ## Text -/

theorem compareNoCase_eq (left right : Bytes) : Collation.compareNoCase left right =
    List.compareLex compare (left.map lowerByte) (right.map lowerByte) := by
  induction left generalizing right with
  | nil =>
    cases right with
    | nil => rfl
    | cons other right => exact compare_lt_iff_lt.mpr (Nat.succ_pos _)
  | cons byte left ih =>
    cases right with
    | nil => exact compare_gt_iff_gt.mpr (Nat.succ_pos _)
    | cons other right =>
      simp only [Collation.compareNoCase, List.map_cons, List.compareLex, ih]
      cases compare (lowerByte byte) (lowerByte other) <;> rfl

theorem Collation.compare_eq (collation : Collation) (left right : String) :
    collation.compare left right =
      List.compareLex Ord.compare (collation.fold (utf8 left)) (collation.fold (utf8 right)) := by
  cases collation with
  | binary => rfl
  | noCase => exact compareNoCase_eq _ _
  | rTrim => rfl

/-- What an ordering of values says about their encodings. -/
def Encoded (ordering : Ordering) (left right : Bytes) : Prop :=
  match ordering with
  | .lt => left = right ∨ Below left right
  | .eq => left = right
  | .gt => left = right ∨ Below right left

theorem Encoded.cons {ordering : Ordering} {left right : Bytes} (encoded : Encoded ordering left right)
    (byte : UInt8) : Encoded ordering (byte :: left) (byte :: right) := by
  cases ordering with
  | lt => exact encoded.imp (congrArg _) (·.cons byte)
  | eq => exact congrArg _ encoded
  | gt => exact encoded.imp (congrArg _) (·.cons byte)

variable {ordering : Ordering} {collation : Collation} {leftBytes rightBytes : Bytes}

section

variable {left right : Bytes} (encoded : Encoded ordering left right)

include encoded

theorem Encoded.swap : Encoded ordering.swap right left := by
  cases ordering with
  | lt => exact encoded.imp_left Eq.symm
  | eq => exact Eq.symm encoded
  | gt => exact encoded.imp_left Eq.symm

theorem Encoded.apart :
    left = right ∨ Below left right ∨ Below right left := by
  cases ordering with
  | lt => exact encoded.imp_right .inl
  | eq => exact .inl encoded
  | gt => exact encoded.imp_right .inr

end

theorem encodeBytes_cons (byte : UInt8) (bytes : Bytes) : encodeBytes (byte :: bytes) =
    (if byte = 0 then [byte, 255] else [byte]) ++ encodeBytes bytes := by
  simp [encodeBytes]

theorem below_encodeBytes_nil (byte : UInt8) (bytes : Bytes) :
    Below (encodeBytes []) (encodeBytes (byte :: bytes)) := by
  rw [encodeBytes_cons]
  split
  · rename_i zero
    subst zero
    exact (Below.of_lt (by decide) [] _).cons 0
  · rename_i positive
    refine Below.of_lt ?_ _ _
    rw [UInt8.lt_iff_toNat_lt]
    have : byte.toNat ≠ 0 := fun none => positive (UInt8.toNat_inj.mp (by simpa using none))
    simpa using Nat.pos_of_ne_zero this

theorem encodeBytes_encoded (left right : Bytes) :
    Encoded (List.compareLex compare left right) (encodeBytes left) (encodeBytes right) := by
  induction left generalizing right with
  | nil =>
    cases right with
    | nil => rfl
    | cons byte right => exact .inr (below_encodeBytes_nil byte right)
  | cons byte left ih =>
    cases right with
    | nil => exact .inr (below_encodeBytes_nil byte left)
    | cons other right =>
      have apart : ∀ {low high : UInt8} (lows highs : Bytes), low < high ->
          Below (encodeBytes (low :: lows)) (encodeBytes (high :: highs)) := by
        intro low high lows highs lt
        have positive : high ≠ 0 := by
          rintro rfl
          exact absurd lt (by simp [UInt8.lt_iff_toNat_lt])
        rw [encodeBytes_cons, encodeBytes_cons, if_neg positive]
        split <;> exact Below.of_lt lt _ _
      rw [List.compareLex_cons_cons]
      rcases lt_trichotomy byte other with lt | rfl | gt
      · rw [compare_lt_iff_lt.mpr lt]
        exact .inr (apart _ _ lt)
      · have same : compare byte byte = .eq := compare_eq_iff_eq.mpr rfl
        rw [same, encodeBytes_cons, encodeBytes_cons]
        split
        · exact ((ih right).cons 255).cons byte
        · exact (ih right).cons byte
      · rw [compare_gt_iff_gt.mpr gt]
        exact .inr (apart _ _ gt)

/-! ## Values -/

theorem beBytes_encoded {left right : UInt64} {low high : Int}
    (isLeft : (left.toNat : Int) = F64.orderCode low)
    (isRight : (right.toNat : Int) = F64.orderCode high) (lt : ordering = .lt -> low ≤ high)
    (eq : ordering = .eq -> low = high) (gt : ordering = .gt -> high ≤ low) :
    Encoded ordering (beBytes 8 left.toNat) (beBytes 8 right.toNat) := by
  have below : ∀ {low high : Int} {left right : UInt64}, (left.toNat : Int) = F64.orderCode low ->
      (right.toNat : Int) = F64.orderCode high -> low ≤ high ->
      beBytes 8 left.toNat = beBytes 8 right.toNat ∨
        Below (beBytes 8 left.toNat) (beBytes 8 right.toNat) := by
    intro low high left right isLeft isRight le
    rcases eq_or_lt_of_le le with rfl | less
    · left
      congr 1
      omega
    · right
      have codes := F64.orderCode_lt less
      exact below_leBytes_reverse (by omega) right.toNat_lt
  cases ordering with
  | lt => exact below isLeft isRight (lt rfl)
  | eq =>
    obtain rfl := eq rfl
    change beBytes 8 left.toNat = beBytes 8 right.toNat
    congr 1
    omega
  | gt => exact (below isRight isLeft (gt rfl)).imp_left Eq.symm

theorem encodeValue_number {value : Value} {number : F64} {bytes : Bytes}
    (isNumber : value.asF64 = some number) (encoded : encodeValue collation value = .ok bytes) :
    ∃ code, totalOrder number = .ok code ∧ bytes = 2 :: beBytes 8 code.toNat := by
  have shape : encodeValue collation value =
      (do return 2 :: beBytes 8 (<- totalOrder number).toNat) := by
    cases value <;> cases isNumber <;> rfl
  rw [shape] at encoded
  obtain ⟨code, isCode, rest⟩ := bind_eq_ok encoded
  exact ⟨code, isCode, (Except.ok.inj rest).symm⟩

theorem Value.Fits.natAbs_le {value : Int} (fits : (Value.integer value).Fits) :
    value.natAbs ≤ 2 ^ 63 := by
  obtain ⟨low, high⟩ := fits
  omega

theorem encodeValue_tag {value : Value} {number : Nat} {bytes : Bytes}
    (isClass : value.storageClass = some number)
    (encoded : encodeValue collation value = .ok bytes) :
    number ≤ 3 ∧ ∃ rest, bytes = UInt8.ofNat (number + 1) :: rest := by
  cases value with
  | null | vector => cases isClass
  | integer value =>
    obtain ⟨code, -, rfl⟩ := encodeValue_number rfl encoded
    cases isClass
    exact ⟨by decide, _, rfl⟩
  | real value =>
    obtain ⟨code, -, rfl⟩ := encodeValue_number rfl encoded
    cases isClass
    exact ⟨by decide, _, rfl⟩
  | text value =>
    cases isClass
    exact ⟨by decide, _, (Except.ok.inj encoded).symm⟩
  | blob value =>
    cases isClass
    exact ⟨by decide, _, (Except.ok.inj encoded).symm⟩

theorem encodeValue_encoded_real {left right : Value} {low high : F64}
    (isLow : left.asF64 = some low) (isHigh : right.asF64 = some high)
    (isLeft : encodeValue collation left = .ok leftBytes)
    (isRight : encodeValue collation right = .ok rightBytes) :
    Encoded ((low.partialCmp high).getD .eq) leftBytes rightBytes := by
  obtain ⟨lowCode, isLowCode, rfl⟩ := encodeValue_number isLow isLeft
  obtain ⟨highCode, isHighCode, rfl⟩ := encodeValue_number isHigh isRight
  obtain ⟨lowNumber, lowOrder⟩ := totalOrder_spec isLowCode
  obtain ⟨highNumber, highOrder⟩ := totalOrder_spec isHighCode
  have isCompared : low.partialCmp high = some (compare low.signed high.signed) := by
    rw [F64.partialCmp, lowNumber, highNumber]
    rfl
  rw [isCompared]
  exact (beBytes_encoded lowOrder highOrder (fun lt => (compare_lt_iff_lt.mp lt).le)
    compare_eq_iff_eq.mp (fun gt => (compare_gt_iff_gt.mp gt).le)).cons 2

theorem encodeValue_encoded {left right : Value} (leftFits : left.Fits) (rightFits : right.Fits)
    (isLeft : encodeValue collation left = .ok leftBytes)
    (isRight : encodeValue collation right = .ok rightBytes)
    (compared : classCompare left right collation = .ok ordering) :
    Encoded ordering leftBytes rightBytes := by
  unfold classCompare at compared
  split at compared
  case h_2 => cases compared
  case h_1 leftClass rightClass isLeftClass isRightClass =>
    split at compared
    case h_2 notEq =>
      obtain rfl := Except.ok.inj compared
      obtain ⟨leftSmall, leftRest, rfl⟩ := encodeValue_tag isLeftClass isLeft
      obtain ⟨rightSmall, rightRest, rfl⟩ := encodeValue_tag isRightClass isRight
      have tags : ∀ {low high : Nat}, low ≤ 3 -> high ≤ 3 -> low < high ->
          UInt8.ofNat (low + 1) < UInt8.ofNat (high + 1) := by
        intro low high lowSmall highSmall lt
        rw [UInt8.lt_iff_toNat_lt, UInt8.toNat_ofNat', UInt8.toNat_ofNat']
        omega
      cases order : compare leftClass rightClass with
      | lt => exact .inr (Below.of_lt (tags leftSmall rightSmall (compare_lt_iff_lt.mp order)) _ _)
      | eq => exact absurd order notEq
      | gt => exact .inr (Below.of_lt (tags rightSmall leftSmall (compare_gt_iff_gt.mp order)) _ _)
    case h_1 same =>
      split at compared
      · obtain rfl := Except.ok.inj compared
        obtain rfl := Except.ok.inj isLeft
        obtain rfl := Except.ok.inj isRight
        rw [Collation.compare_eq]
        exact (encodeBytes_encoded _ _).cons 3
      · obtain rfl := Except.ok.inj compared
        obtain rfl := Except.ok.inj isLeft
        obtain rfl := Except.ok.inj isRight
        exact (encodeBytes_encoded _ _).cons 4
      · rename_i low high
        obtain rfl := Except.ok.inj compared
        obtain ⟨lowCode, isLowCode, rfl⟩ := encodeValue_number rfl isLeft
        obtain ⟨highCode, isHighCode, rfl⟩ := encodeValue_number rfl isRight
        have mono : ∀ {low high : Int}, (Value.integer low).Fits -> (Value.integer high).Fits ->
            low ≤ high -> (F64.ofInt low).signed ≤ (F64.ofInt high).signed :=
          fun lowFits highFits le =>
            F64.signed_ofInt_mono lowFits.natAbs_le highFits.natAbs_le le
        exact (beBytes_encoded (totalOrder_spec isLowCode).2 (totalOrder_spec isHighCode).2
          (fun lt => mono leftFits rightFits (compare_lt_iff_lt.mp lt).le)
          (fun eq => by rw [compare_eq_iff_eq.mp eq])
          (fun gt => mono rightFits leftFits (compare_gt_iff_gt.mp gt).le)).cons 2
      · split at compared
        · rename_i isLow isHigh
          obtain rfl := Except.ok.inj compared
          exact encodeValue_encoded_real isLow isHigh isLeft isRight
        · -- Two values of one class are numbers, texts or blobs.
          rename_i notTexts notBlobs notIntegers _ _ notNumbers
          have classes : leftClass = rightClass := compare_eq_iff_eq.mp same
          subst classes
          exfalso
          cases left <;> cases isLeftClass <;> cases right <;> cases isRightClass <;>
            first
              | exact notTexts _ _ rfl rfl
              | exact notBlobs _ _ rfl rfl
              | exact notNumbers _ _ rfl rfl

end InlaySql.Sql

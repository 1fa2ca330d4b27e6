import InlaySql.Eval.Numbers
import InlaySql.Json.Write

/-!
# The text of a double

Fifteen significant digits, rounded from the exact value of the double, without trailing
zeros and with a point. Every finite double is rendered as a number of the grammar that does
not read as an integer; the others have a name instead.
-/

namespace InlaySql.Json

open List Sql Eval

/-- The magnitude of a finite double as a quotient. -/
def ratio (value : F64) : Nat × Nat :=
  let field := value.magnitude.toNat / 2 ^ 52
  let fraction := value.magnitude.toNat % 2 ^ 52
  if field = 0 then (fraction, 2 ^ 1074)
  else if field < 1075 then (2 ^ 52 + fraction, 2 ^ (1075 - field))
  else ((2 ^ 52 + fraction) * 2 ^ (field - 1075), 1)

/-- The quotient times a power of ten, rounded to an integer. -/
def roundTimes (p q : Nat) (power : Int) : Nat :=
  if 0 ≤ power then roundRatio (p * 10 ^ power.toNat) q else roundRatio p (q * 10 ^ (-power).toNat)

/-- The power of ten of the first digit of a quotient. -/
def decimalExponent (p q : Nat) : Int := (Nat.log 10 (p * 10 ^ 400 / q) : Int) - 400

/-- The digits and the exponent of `{:.*e}`. -/
def scientific (value : F64) (decimals : Nat) : Nat × Int :=
  let (p, q) := ratio value
  if p = 0 then (0, 0)
  else
    let exponent := decimalExponent p q
    let digits := roundTimes p q (decimals - exponent)
    if digits = 10 ^ (decimals + 1) then (10 ^ decimals, exponent + 1) else (digits, exponent)

/-- A sign, for a double that has one. -/
def signText (value : F64) : List Char := if value.bits &&& F64.signBit ≠ 0 then ['-'] else []

/-- The digits with the point before the last of them. -/
def pointed (digits decimals : Nat) : List Char :=
  Nat.toDigits 10 (digits / 10 ^ decimals) ++
    if decimals = 0 then [] else '.' :: (Nat.toDigits 10 (digits % 10 ^ decimals)).leftpad decimals '0'

def trimFraction (text : List Char) (forceFraction : Bool) : List Char :=
  let whole := text.takeWhile (· != '.')
  match text.dropWhile (· != '.') with
  | _ :: fraction =>
    let fraction := fraction.rdropWhile (· == '0')
    if fraction = [] then if forceFraction then whole ++ ['.', '0'] else whole
    else whole ++ '.' :: fraction
  | [] => if forceFraction then text ++ ['.', '0'] else text

def formatG (value : F64) (precision : Nat) (forceFraction : Bool) : List Char :=
  if value.isNan then "NaN".toList
  else if !isFinite value then
    if value.bits &&& F64.signBit ≠ 0 then "-Inf".toList else "Inf".toList
  else
    let (digits, exponent) := scientific value (precision - 1)
    if exponent < -4 ∨ (precision : Int) ≤ exponent then
      trimFraction (signText value ++ pointed digits (precision - 1)) forceFraction ++
        'e' :: (if exponent < 0 then '-' else '+') ::
          (Nat.toDigits 10 exponent.natAbs).leftpad 2 '0'
    else
      let decimals := ((precision : Int) - 1 - exponent).toNat
      let (p, q) := ratio value
      trimFraction (signText value ++ pointed (roundTimes p q decimals) decimals) forceFraction

def realToText (value : F64) : String := String.ofList (formatG value 15 true)

/-! ## Trimming -/

theorem digits_leftpad (width number : Nat) :
    Digits ((Nat.toDigits 10 number).leftpad width '0') := by
  obtain ⟨nonempty, digits⟩ := (toDigits_spec number).1.digits
  constructor
  · intro empty
    have length := congrArg List.length empty
    rw [length_leftpad, length_nil] at length
    exact nonempty (length_eq_zero_iff.mp (by omega))
  · intro c inside
    simp only [List.leftpad, mem_append, mem_replicate] at inside
    obtain ⟨-, rfl⟩ | inside := inside
    · decide
    · exact digits c inside

theorem trimFraction_pointed {sign : List Char} (isSign : sign = [] ∨ sign = ['-'])
    (digits decimals : Nat) :
    ∃ whole fraction, trimFraction (sign ++ pointed digits decimals) true =
      sign ++ whole ++ '.' :: fraction ∧ Integral whole ∧ Digits fraction := by
  obtain ⟨integral, -, -⟩ := toDigits_spec (digits / 10 ^ decimals)
  have before : ∀ c ∈ sign ++ Nat.toDigits 10 (digits / 10 ^ decimals), (c != '.') = true := by
    intro c inside
    rcases mem_append.mp inside with inside | inside
    · obtain rfl | rfl := isSign
      · cases inside
      · obtain rfl : c = '-' := by simpa using inside
        decide
    · have digit := integral.digits.2 c inside
      rw [bne_iff_ne]
      rintro rfl
      exact absurd digit (by decide)
  have zero : Digits ['0'] := ⟨by simp, by simp [isDigit]⟩
  by_cases none : decimals = 0
  · refine ⟨_, ['0'], ?_, integral, zero⟩
    have text : sign ++ pointed digits decimals = sign ++ Nat.toDigits 10 (digits / 10 ^ decimals) := by
      rw [pointed, if_pos none, append_nil]
    have all := dropWhile_eq_nil_iff.mpr before
    simp only [trimFraction, text, all, if_true]
  · have split : sign ++ pointed digits decimals =
        (sign ++ Nat.toDigits 10 (digits / 10 ^ decimals)) ++
          '.' :: (Nat.toDigits 10 (digits % 10 ^ decimals)).leftpad decimals '0' := by
      rw [pointed, if_neg none, append_assoc]
    have front : ((sign ++ pointed digits decimals).takeWhile (· != '.')) =
        sign ++ Nat.toDigits 10 (digits / 10 ^ decimals) := by
      rw [split, takeWhile_append_of_pos before]
      simp
    have back : ((sign ++ pointed digits decimals).dropWhile (· != '.')) =
        '.' :: (Nat.toDigits 10 (digits % 10 ^ decimals)).leftpad decimals '0' := by
      rw [split, dropWhile_append_of_pos before]
      simp
    have some := (digits_leftpad decimals (digits % 10 ^ decimals)).2
    simp only [trimFraction, front, back, if_true]
    split
    · exact ⟨_, ['0'], by simp, integral, zero⟩
    · rename_i left
      refine ⟨_, _, by simp, integral, left, ?_⟩
      intro c inside
      exact some c (( rdropWhile_prefix _ _).subset inside)

/-! ## Every finite double -/

theorem readI64_point {sign whole : List Char} (rest : List Char) (isSign : sign = [] ∨ sign = ['-'])
    (integral : Integral whole) : readI64 (sign ++ whole ++ '.' :: rest) = none := by
  have notAll (word : List Char) : (word ++ '.' :: rest).all isDigit = false := by
    rw [all_append, all_cons]
    simp [isDigit]
  obtain ⟨nonempty, digits⟩ := integral.digits
  unfold readI64
  split
  rename_i negative word sign
  obtain rfl | rfl := isSign
  · split at sign
    · rename_i split
      cases whole with
      | nil => exact absurd rfl nonempty
      | cons c whole =>
        cases split
        exact absurd (digits '-' mem_cons_self) (by decide)
    · rename_i split
      cases whole with
      | nil => exact absurd rfl nonempty
      | cons c whole =>
        cases split
        exact absurd (digits '+' mem_cons_self) (by decide)
    · cases sign
      simp [notAll]
  · cases sign
    simp [notAll]

theorem realText_realToText {value : F64} (finite : isFinite value = true) :
    RealText value (realToText value) := by
  have isNumber : value.isNan = false := by
    unfold isFinite at finite
    unfold F64.isNan
    simp only [decide_eq_true_eq, decide_eq_false_iff_not] at finite ⊢
    intro beyond
    exact absurd (UInt64.lt_trans finite beyond) (UInt64.lt_irrefl _)
  have isSign : signText value = [] ∨ signText value = ['-'] := by
    unfold signText
    split
    · exact .inr rfl
    · exact .inl rfl
  have shape : ∃ whole fraction exponent, formatG value 15 true =
      signText value ++ whole ++ '.' :: fraction ++ exponent ∧ Integral whole ∧ Digits fraction ∧
        Exponent exponent := by
    simp only [formatG, isNumber, finite, Bool.false_eq_true, if_false, Bool.not_true]
    split
    · obtain ⟨whole, fraction, trimmed, integral, digits⟩ :=
        trimFraction_pointed isSign (scientific value (15 - 1)).1 (15 - 1)
      rw [trimmed]
      refine ⟨whole, fraction, _, rfl, integral, digits, .inr ?_⟩
      refine ⟨'e', [if (scientific value (15 - 1)).2 < 0 then '-' else '+'], _, rfl, .inl rfl, ?_,
        digits_leftpad 2 _⟩
      split
      · exact .inr (.inr rfl)
      · exact .inr (.inl rfl)
    · obtain ⟨whole, fraction, trimmed, integral, digits⟩ :=
        trimFraction_pointed isSign (roundTimes (ratio value).1 (ratio value).2
          (((15 : Int) - 1 - (scientific value (15 - 1)).2).toNat))
          (((15 : Int) - 1 - (scientific value (15 - 1)).2).toNat)
      exact ⟨whole, fraction, [], by simpa using trimmed, integral, digits, .inl rfl⟩
  obtain ⟨whole, fraction, exponent, text, integral, digits, isExponent⟩ := shape
  rw [RealText, realToText, String.toList_ofList, text]
  constructor
  · exact ⟨signText value, whole, '.' :: fraction, exponent, by simp, isSign, integral,
      .inr ⟨fraction, rfl, digits⟩, isExponent⟩
  · simpa using readI64_point (fraction ++ exponent) isSign integral

end InlaySql.Json

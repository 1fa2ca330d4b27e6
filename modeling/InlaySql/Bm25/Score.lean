import InlaySql.Bm25.Index

/-!
# Okapi BM25

The four arithmetic steps of a score, on exact rationals. The logarithm is a parameter, of which
only the sign is used. A contribution rises with the frequency and falls with the length, so what
an impact allows bounds it.
-/

namespace InlaySql.Bm25

/-- `K1`: how soon the frequency saturates. -/
def k1 : ℚ := 6 / 5

/-- `B`: how strongly the length counts. -/
def b : ℚ := 3 / 4

/-- `f32::EPSILON`. -/
def epsilon : ℚ := 1 / 2 ^ 23

def averageLength (totalLength live : Nat) : ℚ := if live = 0 then 0 else totalLength / live

def idf (logf : ℚ -> ℚ) (docCount documentFrequency : Nat) : ℚ :=
  logf (1 + (docCount - documentFrequency + 1 / 2) / (documentFrequency + 1 / 2))

def lengthNormalisation (length : Nat) (average : ℚ) : ℚ :=
  k1 * (1 - b + b * length / max average epsilon)

def contribution (idf : ℚ) (frequency : Nat) (normalisation : ℚ) : ℚ :=
  idf * (frequency * (k1 + 1)) / (frequency + normalisation)

/-- `Impact::ceiling`: the largest contribution of a document under the term. -/
def Impact.ceiling (self : Impact) (idf average : ℚ) : ℚ :=
  if self.maxFrequency = 0 then 0
  else
    let length := if self.minLength = maxU32 then 0 else self.minLength
    contribution idf self.maxFrequency (lengthNormalisation length average)

/-- A logarithm of a number that is at least one. -/
def Logarithmic (logf : ℚ -> ℚ) : Prop := ∀ number, 1 ≤ number -> 0 ≤ logf number

variable {logf : ℚ -> ℚ} {weight average : ℚ}

theorem idf_nonneg (logarithmic : Logarithmic logf) {docCount documentFrequency : Nat}
    (within : documentFrequency ≤ docCount) : 0 ≤ idf logf docCount documentFrequency := by
  refine logarithmic _ (le_add_of_nonneg_right ?_)
  have fewer : (documentFrequency : ℚ) ≤ docCount := Nat.cast_le.mpr within
  refine div_nonneg ?_ (by positivity)
  linarith

theorem scale_pos (average : ℚ) : 0 < max average epsilon :=
  lt_max_of_lt_right (by norm_num [epsilon])

theorem lengthNormalisation_pos (length : Nat) (average : ℚ) :
    0 < lengthNormalisation length average := by
  have scaled : 0 ≤ b * length / max average epsilon :=
    div_nonneg (mul_nonneg (by norm_num [b]) (Nat.cast_nonneg length)) (scale_pos average).le
  have least : (0 : ℚ) < 1 - b := by norm_num [b]
  exact mul_pos (by norm_num [k1]) (by linarith)

theorem lengthNormalisation_mono {short long : Nat} (shorter : short ≤ long) (average : ℚ) :
    lengthNormalisation short average ≤ lengthNormalisation long average := by
  have cast : (short : ℚ) ≤ long := Nat.cast_le.mpr shorter
  refine mul_le_mul_of_nonneg_left (add_le_add_right ?_ _) (by norm_num [k1])
  exact div_le_div_of_nonneg_right (mul_le_mul_of_nonneg_left cast (by norm_num [b]))
    (scale_pos average).le

theorem contribution_nonneg (isWeight : 0 ≤ weight) (frequency length : Nat) :
    0 ≤ contribution weight frequency (lengthNormalisation length average) := by
  have normalised := lengthNormalisation_pos length average
  have scaled : 0 ≤ (frequency : ℚ) * (k1 + 1) :=
    mul_nonneg (Nat.cast_nonneg frequency) (by norm_num [k1])
  exact div_nonneg (mul_nonneg isWeight scaled)
    (add_nonneg (Nat.cast_nonneg frequency) normalised.le)

theorem contribution_le (isWeight : 0 ≤ weight) {frequency most length least : Nat}
    (occurs : 0 < frequency) (rises : frequency ≤ most) (falls : least ≤ length) :
    contribution weight frequency (lengthNormalisation length average) ≤
      contribution weight most (lengthNormalisation least average) := by
  have small := lengthNormalisation_pos least average
  have large := lengthNormalisation_mono falls average
  have some : (0 : ℚ) < frequency := Nat.cast_pos.mpr occurs
  have more : (frequency : ℚ) ≤ most := Nat.cast_le.mpr rises
  have gain : (0 : ℚ) ≤ weight * (k1 + 1) := mul_nonneg isWeight (by norm_num [k1])
  have share : (frequency : ℚ) / (frequency + lengthNormalisation length average) ≤
      most / (most + lengthNormalisation least average) := by
    rw [div_le_div_iff₀ (by linarith) (by linarith)]
    nlinarith [mul_le_mul more large small.le (some.le.trans more)]
  calc contribution weight frequency (lengthNormalisation length average)
      = weight * (k1 + 1) * (frequency / (frequency + lengthNormalisation length average)) := by
        rw [contribution]; ring
    _ ≤ weight * (k1 + 1) * (most / (most + lengthNormalisation least average)) :=
        mul_le_mul_of_nonneg_left share gain
    _ = contribution weight most (lengthNormalisation least average) := by
        rw [contribution]; ring

theorem Impact.contribution_le_ceiling {impact : Impact} (isWeight : 0 ≤ weight)
    {frequency length : Nat} (occurs : 0 < frequency) (rises : frequency ≤ impact.maxFrequency)
    (falls : impact.minLength ≤ length) :
    contribution weight frequency (lengthNormalisation length average) ≤
      impact.ceiling weight average := by
  have some : impact.maxFrequency ≠ 0 := by omega
  rw [ceiling, if_neg some]
  refine contribution_le isWeight occurs rises ?_
  split
  · exact Nat.zero_le length
  · exact falls

theorem Impact.ceiling_nonneg (impact : Impact) (isWeight : 0 ≤ weight) :
    0 ≤ impact.ceiling weight average := by
  rw [ceiling]
  split
  · exact le_refl 0
  · exact contribution_nonneg isWeight _ _

end InlaySql.Bm25

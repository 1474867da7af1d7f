import LineCalc.Decimal.Layout

/-!
Numbers: 64-bit integers and doubles. An integer result that does not fit is no number, so integer arithmetic
is exact or refused (`fitInt?_eq_some_iff`), never wrapped.
-/

namespace LineCalc

/-- A number. -/
inductive Num where
  | int (n : Int64)
  | float (x : Float)
deriving DecidableEq, BEq

/-- The 64-bit integer that equals `n`, if there is one. -/
def fitInt? (n : Int) : Option Int64 :=
  if Int64.minValue.toInt ≤ n ∧ n ≤ Int64.maxValue.toInt then some (Int64.ofInt n) else none

theorem fitInt?_eq_some_iff {n : Int} {i : Int64} : fitInt? n = some i ↔ i.toInt = n := by
  unfold fitInt?
  constructor
  · intro h
    split at h
    · next hn =>
      cases h
      exact Int64.toInt_ofInt_of_le hn.1 (Int.lt_add_one_of_le hn.2)
    · contradiction
  · rintro rfl
    rw [if_pos ⟨i.minValue_le_toInt, i.toInt_le⟩, Int64.ofInt_toInt]

theorem fitInt?_eq_none_iff {n : Int} :
    fitInt? n = none ↔ ¬(Int64.minValue.toInt ≤ n ∧ n ≤ Int64.maxValue.toInt) := by
  simp [fitInt?]

namespace Num

/-- The nearest double. -/
def toFloat : Num → Float
  | int n => n.toFloat
  | float x => x

def isZero : Num → Bool
  | int n => n == 0
  | float x => x == 0

/-- The number as the text of a result. -/
def resultText : Num → String
  | int n => toString n.toInt
  | float x => Decimal.Layout.plain.writeFloat x

/-- The number as the text of a literal. -/
def literalText : Num → String
  | int n => toString n.toInt
  | float x => Decimal.Layout.literal.writeFloat x

end Num
end LineCalc

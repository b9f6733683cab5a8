import Ripple.Json.Basic

/-!
# Risk

The risk of a change is a score of zero to a hundred points. A change to
something that is not public counts for seven tenths of its points. Scores
of both kinds are compared as exact numbers; only when a score is written it
becomes a decimal. Scores that were read from elsewhere are decimals from the
start.
-/

namespace Ripple

inductive Score where
  | points (n : Nat)
  /-- Seven tenths of some points. -/
  | discounted (n : Nat)
  /-- A decimal that was read. -/
  | measured (x : Float)

namespace Score

def zero : Score := points 0

def toFloat : Score → Float
  | points n => n.toFloat
  | discounted n => n.toFloat * 0.7
  | measured x => x

def below : Score → Score → Bool
  | points a, points b => a < b
  | points a, discounted b => 10 * a < 7 * b
  | discounted a, points b => 7 * a < 10 * b
  | discounted a, discounted b => a < b
  | a, b => a.toFloat < b.toFloat

/-- The larger of two scores, the first one if they are equal. -/
protected def max (a b : Score) : Score := if a.below b then b else a

/-- Whether a score has at least some points. -/
def reaches (s : Score) (threshold : Nat) : Bool :=
  match s with
  | points n => threshold ≤ n
  | discounted n => 10 * threshold ≤ 7 * n
  | measured x => threshold.toFloat ≤ x

def largest (scores : List Score) : Score := scores.foldl Score.max zero

def toJson (s : Score) : Json := .float s.toFloat

def ofJson? (j : Json) : Option Score := j.float?.map measured

end Score

inductive RiskLevel where
  | safe | risky | breaking
deriving DecidableEq, Repr

namespace RiskLevel

def breakingThreshold : Nat := 80

def riskyThreshold : Nat := 50

def ofScore (s : Score) : RiskLevel :=
  if s.reaches breakingThreshold then breaking
  else if s.reaches riskyThreshold then risky
  else safe

def text : RiskLevel → String
  | safe => "SAFE"
  | risky => "RISKY"
  | breaking => "BREAKING"

def toJson (l : RiskLevel) : Json := .text l.text

instance : ToJson RiskLevel := ⟨RiskLevel.toJson⟩

def ofJson? (j : Json) : Option RiskLevel :=
  j.variant?.bind fun s => [safe, risky, breaking].find? fun l => l.text = s

end RiskLevel

end Ripple

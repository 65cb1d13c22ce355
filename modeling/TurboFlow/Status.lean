import Mathlib.Algebra.Order.Ring.Int

/-!
# Status codes

Every function returns a `salts` status. The codes that the modelled functions compare or produce
have a name; `other` stands for whatever else a callback or a provider may return.
-/

namespace TurboFlow

/-- The `SALTS_*` codes. -/
inductive Status
  | ok
  | einval
  | enomem
  | enospc
  | enoent
  | ealready
  | ebusy
  | eproto
  | erange
  | eshutdown
  | etimedout
  | ecanceled
  | enotsup
  | enobufs
  | eio
  | other (code : ℕ)
  deriving DecidableEq

instance : Inhabited Status := ⟨.ok⟩

end TurboFlow

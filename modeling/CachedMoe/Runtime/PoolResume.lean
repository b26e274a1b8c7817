import CachedMoe.Runtime.KvSave
import CachedMoe.Runtime.PoolSaves

/-! # Sessions that were evicted to disk

    `enforce_budget` takes a session from memory once its save has succeeded, to have it loaded
    again when it is made live. A save ends with the disk budget, which may take the file that
    has just been written; so it is the budget that decides whether the session is still there. -/

namespace CachedMoe.Runtime

open CachedMoe SessionPool

/-! ### The directory -/

section Directory

variable {s s' : SessionPool}

end Directory

/-! ### What is loaded after an eviction -/

section Evicted

variable {s₀ s s' : SessionPool} {as : List Action} {name : Bytes} {p : ParkedContext}

end Evicted

/-! #### Budgets that do and do not keep the file -/

end CachedMoe.Runtime

import SplitKV.Recovery.Lifetime

/-!
# The log alone

No record ever leaves the WAL, and every version in a memtable or a table is one of its records (`Machine.versions_logged`).
So the manifest and the tables may be thrown away, as often as one likes, whenever the database is closed: an opening makes
the same contents out of the log (`Machine.index_disposable`).
-/

namespace SplitKV

/-- What happens to a directory that is not taken care of: also, while it is closed, the manifest is deleted, and any tables
are left, deleted, or written. -/
inductive Fate
  | happens (x : Happening)
  | loses (sst : Folder (Option SSTableFile))

namespace Machine

/-- A condition on what happens. -/
def Happens (Q : Machine → Happening → Prop) : Machine → Fate → Prop
  | m, .happens x => Q m x
  | _, .loses _ => True

variable {o : Options} {m : Contents}

theorem Happens.and {Q R : Machine → Happening → Prop} {mach : Machine} {x : Fate}
    (h : Happens Q mach x ∧ Happens R mach x) : Happens (fun m x => Q m x ∧ R m x) mach x := by
  cases x with
  | happens x => exact h
  | loses sst => trivial

end Machine

end SplitKV

import SplitKV.DBImpl.Open

/-!
# Closing a database (`DBImpl::~DBImpl`)
-/

namespace SplitKV

namespace DB

/-- Memtables are flushed one after the other, from number `i` on; the status of `FlushMemTable` is ignored. -/
def flushAll (f : Nat → FlushFaults) : Nat → List MemTable → DB → DB
  | _, [], db => db
  | i, m :: ms, db => flushAll f (i + 1) ms (db.flushMemTable m (f i)).1

/-- `~DBImpl` behind the join of the flush thread: the active memtable is flushed, then the queue from its front. -/
def destroy (db : DB) (f : Nat → FlushFaults) : DB :=
  let db₁ := if 0 < db.memtable.count then (db.flushMemTable db.memtable (f 0)).1 else db
  flushAll f 1 db.immutableMemtables db₁

end DB

end SplitKV

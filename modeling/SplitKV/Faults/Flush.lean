import SplitKV.Session

/-!
# Flushes that fail

`BackgroundFlush` pops the oldest immutable memtable whatever `FlushMemTable` returns. Nothing visible is lost exactly
when the table was registered, or the memtable was not needed (`backgroundFlush_result_iff`).
-/

namespace SplitKV

open Assoc Versions

namespace DB

/-! ## Versions in the order of their sequence numbers -/

/-- The versions of every key are in the order of their sequence numbers, a sequence number belongs to one version, and
all are below the next one. -/
def OrderedBelow (vs : Key → List InternalEntry) (bound : Nat) : Prop :=
  ∀ key, Descending InternalEntry.sequence (vs key) ∧ Coherent InternalEntry.sequence (vs key) ∧
    ∀ e ∈ vs key, e.sequence < bound

/-- The versions of the database are ordered. -/
def Ordered (db : DB) : Prop := OrderedBelow db.versions db.sequenceNumber

theorem OrderedBelow.settled {vs : Key → List InternalEntry} {n : Nat} (h : OrderedBelow vs n) : SettledBelow vs n :=
  fun k => ⟨(h k).1.newestFirst, (h k).2⟩

theorem Ordered.settled {db : DB} (h : db.Ordered) : db.Settled := OrderedBelow.settled h

/-- Versions that disappear. -/
theorem OrderedBelow.sublist {vs vs' : Key → List InternalEntry} {n m : Nat} (h : OrderedBelow vs n)
    (hs : ∀ k, (vs' k).Sublist (vs k)) (hn : n ≤ m) : OrderedBelow vs' m := fun k =>
  ⟨(h k).1.sublist (hs k), (h k).2.1.mono fun _ ha => (hs k).subset ha,
    fun e he => ((h k).2.2 e ((hs k).subset he)).trans_le hn⟩

/-! ## The loss of a memtable -/

/-- The flush of the oldest memtable: its table is registered, or the memtable is popped without one. -/
theorem flushFront_cases {db : DB} (hw : db.Wf) (f : FlushFaults) {m : MemTable} {ms : List MemTable}
    (hq : db.immutableMemtables = m :: ms) : (db.flushFront f).Wf ∧ db.popFront.OnlyIndex (db.flushFront f) ∧
      if m.count = 0 ∨ f.Registers m then ∀ key, (db.flushFront f).versions key = db.versions key
      else ∀ key, (db.flushFront f).versions key = db.popFront.versions key := by
  have hhead : ∀ x ∈ db.immutableMemtables.head?, x = m := by
    intro x hx
    rw [hq] at hx
    cases hx
    rfl
  split
  · rename_i hreg
    obtain ⟨h₁, h₂, h₃⟩ := versions_flushFront hw (f := f) fun x hx => hhead x hx ▸ hreg
    exact ⟨h₁, h₃, h₂⟩
  · rename_i hreg
    rw [not_or] at hreg
    have hm : m.Valid := by
      refine hw.memtables m (List.mem_cons_of_mem _ (List.mem_reverse.mpr ?_))
      rw [hq]
      exact List.mem_cons_self
    obtain ⟨hi, hl, -⟩ := flushMemTable_fails db hm hreg.1 hreg.2
    have he : db.flushFront f = (db.flushMemTable m f).1.popFront := by rw [flushFront, hq]
    have hidx : db.popFront.OnlyIndex (db.flushMemTable m f).1.popFront := by
      refine ⟨?_, hi.next⟩
      simp only [popFront]
      rw [hi.same]
    rw [he]
    refine ⟨(hw.sameLevels hi hl).popFront, hidx, fun key => ?_⟩
    exact versions_congr hidx.memtable hidx.immutableMemtables hl hidx.options key

/-- A flush, wherever it fails, adds no version and keeps the order of the others. -/
theorem versions_flushFront_sublist {db : DB} (hw : db.Wf) (f : FlushFaults) (key : Key) :
    ((db.flushFront f).versions key).Sublist (db.versions key) := by
  cases hq : db.immutableMemtables with
  | nil =>
    rw [DB.flushFront, hq]
  | cons m ms =>
    obtain ⟨-, -, hv⟩ := flushFront_cases hw f hq
    split at hv
    · rw [hv]
    · rw [hv, versions_front hq, versions_popFront hq, List.append_assoc]
      exact (List.Sublist.refl _).append (List.sublist_append_right _ _)

/-- The flush keeps the order of the versions. -/
theorem Ordered.flushFront {db : DB} (ho : db.Ordered) (hw : db.Wf) (f : FlushFaults) : (db.flushFront f).Ordered := by
  have hseq : (db.flushFront f).sequenceNumber = db.sequenceNumber := by
    cases hq : db.immutableMemtables with
    | nil => rw [DB.flushFront, hq]
    | cons m ms => exact (flushFront_cases hw f hq).2.1.sequenceNumber
  rw [Ordered, hseq]
  exact OrderedBelow.sublist ho (versions_flushFront_sublist hw f) (Nat.le_refl _)

end DB

end SplitKV

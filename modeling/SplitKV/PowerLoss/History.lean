import SplitKV.PowerLoss.Survivors
import SplitKV.Recovery.Batches

/-!
# What may be read behind a power loss

Some entries must last: those of the batches that were acknowledged, or of the ones that were synced. For a key, the last of
them and the entries that were issued since may be read (`History.since`). A log guards a history when it has a record of
that last entry, and all records of the key from it on are records of these entries (`Guarded`).
-/

namespace SplitKV

/-- The entries that were issued, and whether they must last. -/
abbrev History := List (BatchEntry × Bool)

namespace History

/-- An entry that must last replaces those before it; another one may be read, too. -/
def follow (key : Key) (entries : Option WriteBatch) (x : BatchEntry × Bool) : Option WriteBatch :=
  if x.1.key = key then if x.2 then some [x.1] else entries.map (· ++ [x.1]) else entries

/-- The last entry for the key that must last, and the entries for it that were issued since. -/
def since (h : History) (key : Key) : Option WriteBatch := h.foldl (follow key) none

theorem since_append (h : History) (x : BatchEntry × Bool) (key : Key) :
    since (h ++ [x]) key = follow key (h.since key) x := by
  rw [since, List.foldl_append]
  rfl

/-- The entries for other keys do not count. -/
theorem follow_of_ne {key : Key} {x : BatchEntry × Bool} (hx : x.1.key ≠ key) (entries : Option WriteBatch) :
    follow key entries x = entries := if_neg hx

/-- An entry that need not last is only added. -/
theorem follow_false {key : Key} {entries : Option WriteBatch} {e : BatchEntry} {es' : WriteBatch}
    (h : follow key entries (e, false) = some es') :
    ∃ es, entries = some es ∧ (∀ a ∈ es, a ∈ es') ∧ (e.key = key → e ∈ es') := by
  unfold follow at h
  split at h
  · obtain ⟨es, he, rfl⟩ := Option.map_eq_some_iff.mp h
    exact ⟨es, he, fun a ha => List.mem_append_left _ ha, fun _ => List.mem_append_right _ (List.mem_singleton.mpr rfl)⟩
  · rename_i hk
    exact ⟨es', h, fun a ha => ha, fun hk' => absurd hk' hk⟩

/-- They are all for the key. -/
theorem keyed : ∀ {h : History} {key : Key} {es : WriteBatch}, h.since key = some es → ∀ e ∈ es, e.key = key := by
  intro h key
  induction h using List.reverseRecOn with
  | nil => exact fun hs => by cases hs
  | append_singleton h x ih =>
    intro es hs e he
    rw [since_append, follow] at hs
    split at hs
    · rename_i hk
      split at hs
      · cases hs
        rw [List.mem_singleton.mp he]
        exact hk
      · obtain ⟨es', hes, rfl⟩ := Option.map_eq_some_iff.mp hs
        rcases List.mem_append.mp he with he | he
        · exact ih hes e he
        · rw [List.mem_singleton.mp he]
          exact hk
    · exact ih hs e he

end History

/-- The records of the key from `r` on are records of the entries. -/
structure Guards (D : WALRecord → Prop) (vlog : Folder Bytes) (rs : List WALRecord) (key : Key) (es : WriteBatch)
    (r : WALRecord) : Prop where
  mem : r ∈ rs
  keyed : r.key = key
  lasts : D r
  covers : ∀ a ∈ rs, a.key = key → r.sequence ≤ a.sequence → ∃ e ∈ es, e.RecordOf vlog a

/-- Every key with an entry that must last has a record that lasts, and from which on its records are records of the
entries that may be read. -/
def Guarded (D : WALRecord → Prop) (vlog : Folder Bytes) (rs : List WALRecord) (h : History) : Prop :=
  ∀ key es, h.since key = some es → ∃ r, Guards D vlog rs key es r

section

variable {D : WALRecord → Prop} {vlog : Folder Bytes} {rs : List WALRecord} {h : History}

theorem guarded_nil : Guarded D vlog rs [] := fun _ _ hs => by cases hs

/-- Other files that keep the records. -/
theorem Guarded.imp {D' : WALRecord → Prop} {vlog' : Folder Bytes} (hg : Guarded D vlog rs h)
    (hd : ∀ r ∈ rs, D r → D' r) (hv : ∀ a ∈ rs, ∀ e : BatchEntry, e.RecordOf vlog a → e.RecordOf vlog' a) :
    Guarded D' vlog' rs h := by
  intro key es hs
  obtain ⟨r, h₁, h₂, h₃, h₄⟩ := hg key es hs
  refine ⟨r, h₁, h₂, hd r h₁ h₃, fun a ha hk hle => ?_⟩
  obtain ⟨e, he, hr⟩ := h₄ a ha hk hle
  exact ⟨e, he, hv a ha e hr⟩

/-- An entry that need not last, and left no record. -/
theorem Guarded.issue (hg : Guarded D vlog rs h) (e : BatchEntry) : Guarded D vlog rs (h ++ [(e, false)]) := by
  intro key es' hs
  rw [History.since_append] at hs
  obtain ⟨es, he, hsub, -⟩ := History.follow_false hs
  obtain ⟨r, h₁, h₂, h₃, h₄⟩ := hg key es he
  refine ⟨r, h₁, h₂, h₃, fun a ha hk hle => ?_⟩
  obtain ⟨x, hx, hr⟩ := h₄ a ha hk hle
  exact ⟨x, hsub x hx, hr⟩

theorem Guarded.issueAll : ∀ {entries : WriteBatch} {h : History}, Guarded D vlog rs h →
    Guarded D vlog rs (h ++ entries.map (·, false))
  | [], h, hg => by
    rw [List.map_nil, List.append_nil]
    exact hg
  | e :: entries, h, hg => by
    rw [List.map_cons, List.append_cons]
    exact issueAll (hg.issue e)

/-- **An entry with its record**, behind records with smaller sequence numbers. -/
theorem Guarded.append (hg : Guarded D vlog rs h) {e : BatchEntry} {r : WALRecord} (hr : e.RecordOf vlog r) {b : Bool}
    (hb : b = true → D r) (hlt : ∀ a ∈ rs, a.sequence < r.sequence) : Guarded D vlog (rs ++ [r]) (h ++ [(e, b)]) := by
  intro key es' hs
  rw [History.since_append] at hs
  -- a key whose entries stay, or get one more
  have hold : ∀ es, h.since key = some es → (∀ a ∈ es, a ∈ es') → (e.key = key → e ∈ es') →
      ∃ a, Guards D vlog (rs ++ [r]) key es' a := by
    intro es hes hsub he
    obtain ⟨a, h₁, h₂, h₃, h₄⟩ := hg key es hes
    refine ⟨a, List.mem_append_left _ h₁, h₂, h₃, fun c hc hk hle => ?_⟩
    rcases List.mem_append.mp hc with hc | hc
    · obtain ⟨x, hx, hrx⟩ := h₄ c hc hk hle
      exact ⟨x, hsub x hx, hrx⟩
    · rw [List.mem_singleton.mp hc] at hk ⊢
      exact ⟨e, he (hr.key.symm.trans hk), hr⟩
  cases b with
  | false =>
    obtain ⟨es, hes, hsub, he⟩ := History.follow_false hs
    exact hold es hes hsub he
  | true =>
    by_cases hk : e.key = key
    · rw [History.follow, if_pos hk] at hs
      cases hs
      refine ⟨r, List.mem_append_right _ (List.mem_singleton.mpr rfl), hr.key.trans hk, hb rfl, fun a ha _ hle => ?_⟩
      rcases List.mem_append.mp ha with ha | ha
      · exact absurd (hlt a ha) (by omega)
      · rw [List.mem_singleton.mp ha]
        exact ⟨e, List.mem_singleton.mpr rfl, hr⟩
    · rw [History.follow_of_ne hk] at hs
      exact hold es' hs (fun a ha => ha) fun he => absurd he hk

/-- **The entries of a batch with their records.** -/
theorem Guarded.appendAll {entries : WriteBatch} {new : List WALRecord}
    (hr : List.Forall₂ (fun e r => BatchEntry.RecordOf vlog e r) entries new) {b : Bool} :
    ∀ {rs : List WALRecord} {h : History}, Guarded D vlog rs h → (b = true → ∀ r ∈ new, D r) →
      (rs ++ new).Pairwise (fun a b => a.sequence < b.sequence) → Guarded D vlog (rs ++ new) (h ++ entries.map (·, b)) := by
  induction hr with
  | nil =>
    intro rs h hg _ _
    rw [List.append_nil, List.map_nil, List.append_nil]
    exact hg
  | @cons e r entries new hr _ ih =>
    intro rs h hg hb ho
    rw [List.append_cons rs r new] at ho ⊢
    rw [List.map_cons, List.append_cons h]
    have hlt : ∀ a ∈ rs, a.sequence < r.sequence := fun a ha =>
      (List.pairwise_append.mp (List.pairwise_append.mp ho).1).2.2 a ha r (List.mem_singleton.mpr rfl)
    exact ih (hg.append hr (fun hb' => hb hb' r List.mem_cons_self) hlt)
      (fun hb' a ha => hb hb' a (List.mem_cons_of_mem _ ha)) ho

end

end SplitKV

import SplitKV.Manifest

/-!
# The fields of a text (`operator>>`)

What `>>` extracts, as a grammar of the text: a number or a word stands behind whitespace and goes on as far as it can.
The lines that `LoadManifest` reads are the groups of five such fields into which a text divides, for every text
(`readLine_iff`, `mem_readLines_iff`).
-/

namespace SplitKV

/-- A text starts with `a`, whose bytes have a property that the next byte does not have. -/
structure Spans (p : Byte → Bool) (s a rest : Bytes) : Prop where
  eq : s = a ++ rest
  all : ∀ b ∈ a, p b = true
  stops : ∀ b ∈ rest.head?, p b = false

theorem spans_takeWhile (p : Byte → Bool) (s : Bytes) : Spans p s (s.takeWhile p) (s.dropWhile p) where
  eq := List.takeWhile_append_dropWhile.symm
  all _ hb := List.mem_takeWhile_imp hb
  stops b hb := by
    have h := List.head?_dropWhile_not p s
    rw [Option.mem_def] at hb
    rw [hb] at h
    exact h

theorem Spans.takeWhile {p : Byte → Bool} {s a rest : Bytes} (h : Spans p s a rest) : s.takeWhile p = a := by
  rw [h.eq, List.takeWhile_append_of_pos h.all]
  cases rest with
  | nil => exact List.append_nil a
  | cons b rest =>
    rw [List.takeWhile_cons_of_neg (by simp [h.stops b rfl]), List.append_nil]

theorem Spans.dropWhile {p : Byte → Bool} {s a rest : Bytes} (h : Spans p s a rest) : s.dropWhile p = rest := by
  rw [h.eq, List.dropWhile_append_of_pos h.all]
  cases rest with
  | nil => rfl
  | cons b rest => exact List.dropWhile_cons_of_neg (by simp [h.stops b rfl])

/-! ## Numbers -/

/-- The sign in front of the digits. -/
inductive Sign : Bool → Bytes → Prop
  | none : Sign false []
  | plus : Sign false [byte 43]
  | minus : Sign true [byte 45]

/-- A text goes on with a number: whitespace, a sign and digits, and no digit behind them. -/
inductive NumberAt : Bytes → Bool → Nat → Bytes → Prop
  | mk {s ws t sign u ds rest : Bytes} {neg : Bool} (blank : Spans isSpace s ws t) (signed : Sign neg sign)
      (behind : t = sign ++ u) (digits : Spans isDigit u ds rest) (ne : ds ≠ []) :
      NumberAt s neg (digitsValue ds) rest

theorem readNumber_iff {s rest : Bytes} {neg : Bool} {n : Nat} :
    readNumber s = some (neg, n, rest) ↔ NumberAt s neg n rest := by
  constructor
  · intro h
    have hblank := spans_takeWhile isSpace s
    rw [readNumber] at h
    generalize s.dropWhile isSpace = t at h hblank
    have hnumber : ∀ {sign u : Bytes} {neg' : Bool}, Sign neg' sign → t = sign ++ u →
        (if u.takeWhile isDigit = [] then none
          else some (neg', digitsValue (u.takeWhile isDigit), u.dropWhile isDigit)) = some (neg, n, rest) →
        NumberAt s neg n rest := by
      intro sign u neg' hsign hbehind hu
      split at hu
      · cases hu
      · rename_i hne
        cases hu
        exact NumberAt.mk hblank hsign hbehind (spans_takeWhile isDigit u) hne
    cases t with
    | nil => exact hnumber Sign.none rfl h
    | cons b t =>
      by_cases hminus : b.val = 45
      · simp only [hminus, if_true] at h
        have hb : b = byte 45 := Fin.ext hminus
        exact hnumber Sign.minus (by rw [hb]; rfl) h
      by_cases hplus : b.val = 43
      · simp only [hplus, if_true] at h
        have hb : b = byte 43 := Fin.ext hplus
        exact hnumber Sign.plus (by rw [hb]; rfl) h
      · simp only [hminus, hplus, if_false] at h
        exact hnumber Sign.none rfl h
  · intro h
    cases h with
    | mk blank signed behind digits ne =>
      rename_i u ds
      rw [readNumber, blank.dropWhile, behind]
      cases signed with
      | minus =>
        have hminus : (byte 45).val = 45 := rfl
        simp only [List.singleton_append, hminus, if_true, digits.takeWhile, digits.dropWhile, if_neg ne]
      | plus =>
        have hminus : ¬(byte 43).val = 45 := by decide
        have hplus : (byte 43).val = 43 := rfl
        simp only [List.singleton_append, if_neg hminus, if_pos hplus, digits.takeWhile, digits.dropWhile, if_neg ne]
      | none =>
        rw [List.nil_append]
        cases u with
        | nil =>
          have hnil := digits.takeWhile
          exact absurd hnil.symm ne
        | cons d u =>
          have hd : isDigit d = true := by
            have hu := digits.eq
            cases ds with
            | nil => exact absurd rfl ne
            | cons d' ds =>
              rw [List.cons_append] at hu
              cases hu
              exact digits.all d List.mem_cons_self
          have hsign : ¬d.val = 45 ∧ ¬d.val = 43 := by
            simp only [isDigit, decide_eq_true_eq] at hd
            omega
          simp only
          rw [if_neg hsign.1, if_neg hsign.2]
          simp only [digits.takeWhile, digits.dropWhile, if_neg ne]

/-- An unsigned number of `w` bits; a minus sign wraps it around. -/
def UnsignedAt (w : Nat) (s : Bytes) (v : Nat) (rest : Bytes) : Prop :=
  ∃ neg n, NumberAt s neg n rest ∧ n < 2 ^ w ∧ v = if neg then (2 ^ w - n) % 2 ^ w else n

/-- An `int`. -/
def IntAt (s : Bytes) (v : Int) (rest : Bytes) : Prop :=
  ∃ neg n, NumberAt s neg n rest ∧ if neg then n ≤ 2 ^ 31 ∧ v = -n else n < 2 ^ 31 ∧ v = n

theorem readUnsigned_iff {w v : Nat} {s rest : Bytes} : readUnsigned w s = some (v, rest) ↔ UnsignedAt w s v rest := by
  constructor
  · intro h
    rw [readUnsigned] at h
    split at h
    · rename_i neg n rest' hn
      split at h
      · cases h
      · cases h
        exact ⟨neg, n, readNumber_iff.mp hn, by omega, rfl⟩
    · cases h
  · rintro ⟨neg, n, hn, hlt, rfl⟩
    rw [readUnsigned, readNumber_iff.mpr hn]
    simp only
    rw [if_neg (by omega)]

theorem readInt_iff {v : Int} {s rest : Bytes} : readInt s = some (v, rest) ↔ IntAt s v rest := by
  constructor
  · intro h
    rw [readInt] at h
    split at h
    · rename_i neg n rest' hn
      refine ⟨neg, n, ?_⟩
      cases neg with
      | false =>
        simp only [Bool.false_eq_true, if_false] at h ⊢
        split at h
        · cases h
        · cases h
          exact ⟨readNumber_iff.mp hn, by omega, rfl⟩
      | true =>
        simp only [if_true] at h ⊢
        split at h
        · cases h
        · cases h
          exact ⟨readNumber_iff.mp hn, by omega, rfl⟩
    · cases h
  · rintro ⟨neg, n, hn, hv⟩
    rw [readInt, readNumber_iff.mpr hn]
    cases neg with
    | false =>
      simp only [Bool.false_eq_true, if_false] at hv ⊢
      rw [if_neg (by omega), hv.2]
    | true =>
      simp only [if_true] at hv ⊢
      rw [if_neg (by omega), hv.2]

/-! ## Words and groups -/

/-- A text goes on with a word: whitespace, and bytes up to the next whitespace. -/
inductive WordAt : Bytes → Bytes → Bytes → Prop
  | mk {s ws t w rest : Bytes} (blank : Spans isSpace s ws t) (word : Spans (fun b => !isSpace b) t w rest) (ne : w ≠ []) :
      WordAt s w rest

theorem readString_iff {s w rest : Bytes} : readString s = some (w, rest) ↔ WordAt s w rest := by
  constructor
  · intro h
    rw [readString] at h
    split at h
    · cases h
    · rename_i hne
      cases h
      exact WordAt.mk (spans_takeWhile isSpace s) (spans_takeWhile _ _) hne
  · rintro ⟨blank, word, ne⟩
    rw [readString, blank.dropWhile]
    simp only [word.takeWhile, word.dropWhile, if_neg ne]

/-- A text goes on with a group of five fields: a file id, a level, a number of entries and two keys. -/
inductive GroupAt : Bytes → ManifestLine → Bytes → Prop
  | mk {s s₁ s₂ s₃ s₄ rest : Bytes} {line : ManifestLine} (fileId : UnsignedAt 32 s line.fileId s₁)
      (level : IntAt s₁ line.level s₂) (numEntries : UnsignedAt 64 s₂ line.numEntries s₃)
      (smallestKey : WordAt s₃ line.smallestKey s₄) (largestKey : WordAt s₄ line.largestKey rest) : GroupAt s line rest

theorem readLine_iff {s rest : Bytes} {line : ManifestLine} : readLine s = some (line, rest) ↔ GroupAt s line rest := by
  constructor
  · intro h
    rw [readLine] at h
    split at h
    · cases h
    rename_i hid
    split at h
    · cases h
    rename_i hlevel
    split at h
    · cases h
    rename_i hnum
    split at h
    · cases h
    rename_i hsmall
    split at h
    · cases h
    rename_i hlarge
    cases h
    exact GroupAt.mk (readUnsigned_iff.mp hid) (readInt_iff.mp hlevel) (readUnsigned_iff.mp hnum)
      (readString_iff.mp hsmall) (readString_iff.mp hlarge)
  · rintro ⟨fileId, level, numEntries, smallestKey, largestKey⟩
    rw [readLine, readUnsigned_iff.mpr fileId]
    simp only [readInt_iff.mpr level, readUnsigned_iff.mpr numEntries, readString_iff.mpr smallestKey,
      readString_iff.mpr largestKey]

/-- A text divides into groups, behind which it goes on. -/
inductive Divides : Bytes → List ManifestLine → Bytes → Prop
  | nil (s : Bytes) : Divides s [] s
  | cons {s s' rest : Bytes} {line : ManifestLine} {lines : List ManifestLine} (group : GroupAt s line s')
      (groups : Divides s' lines rest) : Divides s (line :: lines) rest

theorem Spans.length_eq {p : Byte → Bool} {s a rest : Bytes} (h : Spans p s a rest) : s.length = a.length + rest.length := by
  rw [h.eq, List.length_append]

theorem NumberAt.length_lt {s rest : Bytes} {neg : Bool} {n : Nat} (h : NumberAt s neg n rest) : rest.length < s.length := by
  cases h with
  | mk blank signed behind digits ne =>
    have hpos := List.length_pos_of_ne_nil ne
    have hs := blank.length_eq
    have ht := congrArg List.length behind
    have hu := digits.length_eq
    rw [List.length_append] at ht
    omega

theorem WordAt.length_le {s w rest : Bytes} (h : WordAt s w rest) : rest.length ≤ s.length := by
  cases h with
  | mk blank word ne =>
    have hs := blank.length_eq
    have ht := word.length_eq
    omega

/-- A group takes bytes of the text. -/
theorem GroupAt.length_lt {s rest : Bytes} {line : ManifestLine} (h : GroupAt s line rest) : rest.length < s.length := by
  obtain ⟨⟨_, _, hid, -⟩, ⟨_, _, hlevel, -⟩, ⟨_, _, hnum, -⟩, hsmall, hlarge⟩ := h
  have h₁ := hid.length_lt
  have h₂ := hlevel.length_lt
  have h₃ := hnum.length_lt
  have h₄ := hsmall.length_le
  have h₅ := hlarge.length_le
  omega

/-- The first group of a division that ends with a line. -/
theorem Divides.first {s rest : Bytes} {lines : List ManifestLine} {line : ManifestLine}
    (h : Divides s (lines ++ [line]) rest) : ∃ l s', GroupAt s l s' ∧
      (l = line ∨ ∃ lines', Divides s' (lines' ++ [line]) rest) := by
  cases lines with
  | nil =>
    cases h with
    | cons group groups => exact ⟨line, _, group, Or.inl rfl⟩
  | cons l lines =>
    cases h with
    | cons group groups => exact ⟨l, _, group, Or.inr ⟨lines, groups⟩⟩

/-- **The lines of a text** are those of the groups into which it divides. -/
theorem mem_readLines_iff {line : ManifestLine} : ∀ {fuel : Nat} {s : Bytes}, s.length ≤ fuel →
    (line ∈ readLines fuel s ↔ ∃ lines rest, Divides s (lines ++ [line]) rest)
  | 0, s, hs => by
    refine iff_of_false List.not_mem_nil ?_
    rintro ⟨lines, rest, h⟩
    obtain ⟨l, s', hgroup, -⟩ := h.first
    exact absurd hgroup.length_lt (by omega)
  | fuel + 1, s, hs => by
    rw [readLines]
    cases hr : readLine s with
    | none =>
      refine iff_of_false List.not_mem_nil ?_
      rintro ⟨lines, rest, h⟩
      obtain ⟨l, s', hgroup, -⟩ := h.first
      rw [readLine_iff.mpr hgroup] at hr
      cases hr
    | some x =>
      obtain ⟨l, s'⟩ := x
      have hgroup := readLine_iff.mp hr
      have hlt := hgroup.length_lt
      have ih := @mem_readLines_iff line fuel s' (by omega)
      simp only [List.mem_cons, ih]
      constructor
      · rintro (rfl | ⟨lines, rest, h⟩)
        · exact ⟨[], s', Divides.cons hgroup (Divides.nil s')⟩
        · exact ⟨l :: lines, rest, Divides.cons hgroup h⟩
      · rintro ⟨lines, rest, h⟩
        obtain ⟨l', s'', hgroup', hline⟩ := h.first
        rw [readLine_iff.mpr hgroup'] at hr
        cases hr
        rcases hline with rfl | ⟨lines', h'⟩
        · exact Or.inl rfl
        · exact Or.inr ⟨lines', rest, h'⟩

end SplitKV

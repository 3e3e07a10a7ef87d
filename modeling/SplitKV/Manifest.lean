import SplitKV.FileName

/-!
# The text of the manifest (`DBImpl::SaveManifest`, `DBImpl::LoadManifest`)

The manifest is written with `<<` and read back with `>>`, which splits at whitespace. A manifest whose keys are not
empty and contain no whitespace is read back as it was written (`parseManifest_encode`).
-/

namespace SplitKV

/-- What the manifest says about one table. -/
structure ManifestLine where
  fileId : Nat
  level : Int
  numEntries : Nat
  smallestKey : Bytes
  largestKey : Bytes
  deriving DecidableEq

/-- `isspace` in the C locale. -/
def isSpace (b : Byte) : Bool := decide (9 ≤ b.val ∧ b.val ≤ 13) || decide (b.val = 32)

def space : Byte := byte 32
def newline : Byte := byte 10

/-- `oss << level`. -/
def encodeInt (n : Int) : Bytes := if n < 0 then byte 45 :: toDecimal n.natAbs else toDecimal n.natAbs

/-- One line of the manifest. -/
def encodeLine (l : ManifestLine) : Bytes :=
  toDecimal l.fileId ++ space :: (encodeInt l.level ++ space :: (toDecimal l.numEntries ++
    space :: (l.smallestKey ++ space :: (l.largestKey ++ [newline]))))

/-- The text `SaveManifest` writes. -/
def encodeManifest (nextSstableId : Nat) (lines : List ManifestLine) : Bytes :=
  toDecimal nextSstableId ++ newline :: (lines.map encodeLine).flatten

/-- `>>` into a number: the sign, the magnitude and the rest of the stream. -/
def readNumber (s : Bytes) : Option (Bool × Nat × Bytes) :=
  let s := s.dropWhile isSpace
  let (neg, s) := match s with
    | b :: t => if b.val = 45 then (true, t) else if b.val = 43 then (false, t) else (false, s)
    | [] => (false, s)
  let ds := s.takeWhile isDigit
  if ds = [] then none else some (neg, digitsValue ds, s.dropWhile isDigit)

/-- `>>` into an unsigned integer of `w` bits; a negative number wraps around. -/
def readUnsigned (w : Nat) (s : Bytes) : Option (Nat × Bytes) :=
  match readNumber s with
  | some (neg, n, rest) => if 2 ^ w ≤ n then none else some (if neg then (2 ^ w - n) % 2 ^ w else n, rest)
  | none => none

/-- `>>` into an `int`. -/
def readInt (s : Bytes) : Option (Int × Bytes) :=
  match readNumber s with
  | some (neg, n, rest) =>
    if neg then if 2 ^ 31 < n then none else some (-n, rest)
    else if 2 ^ 31 ≤ n then none else some (n, rest)
  | none => none

/-- `>>` into a string. -/
def readString (s : Bytes) : Option (Bytes × Bytes) :=
  let s := s.dropWhile isSpace
  let w := s.takeWhile (fun b => !isSpace b)
  if w = [] then none else some (w, s.dropWhile (fun b => !isSpace b))

/-- `iss >> file_id >> level >> num_entries >> smallest >> largest`. -/
def readLine (s : Bytes) : Option (ManifestLine × Bytes) :=
  match readUnsigned 32 s with
  | none => none
  | some (fileId, s) =>
    match readInt s with
    | none => none
    | some (level, s) =>
      match readUnsigned 64 s with
      | none => none
      | some (numEntries, s) =>
        match readString s with
        | none => none
        | some (smallestKey, s) =>
          match readString s with
          | none => none
          | some (largestKey, s) => some (⟨fileId, level, numEntries, smallestKey, largestKey⟩, s)

/-- The loop of `LoadManifest` over the lines; every line takes at least one byte. -/
def readLines : Nat → Bytes → List ManifestLine
  | 0, _ => []
  | fuel + 1, s =>
    match readLine s with
    | none => []
    | some (l, s) => l :: readLines fuel s

/-- The next table id and the lines of a manifest; when the id does not parse, nothing does. -/
def parseManifest (content : Bytes) : Nat × List ManifestLine :=
  match readUnsigned 32 content with
  | none => (0, [])
  | some (nextSstableId, s) => (nextSstableId, readLines s.length s)

/-! ## Reading back what was written -/

/-- A key that `>>` reads back. -/
def Token (key : Bytes) : Prop := key ≠ [] ∧ ∀ b ∈ key, isSpace b = false

instance : DecidablePred Token := fun key => inferInstanceAs (Decidable (key ≠ [] ∧ ∀ b ∈ key, isSpace b = false))

/-- A line that is read back. -/
structure ManifestLine.Readable (l : ManifestLine) : Prop where
  fileId : l.fileId < 2 ^ 32
  level : 0 ≤ l.level ∧ l.level < 2 ^ 31
  numEntries : l.numEntries < 2 ^ 64
  smallestKey : Token l.smallestKey
  largestKey : Token l.largestKey

theorem isSpace_of_isDigit {b : Byte} (h : isDigit b = true) : isSpace b = false := by
  simp only [isDigit, decide_eq_true_eq] at h
  simp only [isSpace, Bool.or_eq_false_iff, decide_eq_false_iff_not]
  omega

theorem dropWhile_append_cons {p : Byte → Bool} {a : Bytes} {b : Byte} (ha : ∀ x ∈ a, p x = true) (hb : p b = false)
    (rest : Bytes) : (a ++ b :: rest).dropWhile p = b :: rest := by
  rw [List.dropWhile_append_of_pos ha, List.dropWhile_cons_of_neg (by simp [hb])]

theorem takeWhile_append_cons {p : Byte → Bool} {a : Bytes} {b : Byte} (ha : ∀ x ∈ a, p x = true) (hb : p b = false)
    (rest : Bytes) : (a ++ b :: rest).takeWhile p = a := by
  rw [List.takeWhile_append_of_pos ha, List.takeWhile_cons_of_neg (by simp [hb]), List.append_nil]

/-- A number between whitespace is read. -/
theorem readNumber_toDecimal (ws : Bytes) (hws : ∀ b ∈ ws, isSpace b = true) (n : Nat) {sep : Byte}
    (hsep : isSpace sep = true) (rest : Bytes) :
    readNumber (ws ++ (toDecimal n ++ sep :: rest)) = some (false, n, sep :: rest) := by
  obtain ⟨hv, hd, hne, -⟩ := toDecimal_spec n
  have hsep' : isDigit sep = false := by
    by_contra h
    rw [isSpace_of_isDigit (by simpa using h)] at hsep
    cases hsep
  have htake := takeWhile_append_cons hd hsep' rest
  have hdrop := dropWhile_append_cons hd hsep' rest
  cases hc : toDecimal n with
  | nil => exact absurd hc hne
  | cons d ds =>
    have hdd : isDigit d = true := hd d (by rw [hc]; exact List.mem_cons_self)
    have hskip : (ws ++ (d :: ds ++ sep :: rest)).dropWhile isSpace = d :: ds ++ sep :: rest := by
      rw [List.dropWhile_append_of_pos hws]
      exact List.dropWhile_cons_of_neg (by simp [isSpace_of_isDigit hdd])
    rw [hc] at htake hdrop hv
    have hsign : ¬d.val = 45 ∧ ¬d.val = 43 := by
      simp only [isDigit, decide_eq_true_eq] at hdd
      omega
    rw [readNumber, hskip]
    simp only [List.cons_append] at htake hdrop ⊢
    rw [if_neg hsign.1, if_neg hsign.2]
    simp only [htake, hdrop, hv]
    rw [if_neg (by simp)]

theorem readUnsigned_toDecimal {w : Nat} (ws : Bytes) (hws : ∀ b ∈ ws, isSpace b = true) {n : Nat} (hn : n < 2 ^ w)
    {sep : Byte} (hsep : isSpace sep = true) (rest : Bytes) :
    readUnsigned w (ws ++ (toDecimal n ++ sep :: rest)) = some (n, sep :: rest) := by
  rw [readUnsigned, readNumber_toDecimal ws hws n hsep rest]
  simp [Nat.not_le.mpr hn]

theorem readInt_encodeInt (ws : Bytes) (hws : ∀ b ∈ ws, isSpace b = true) {n : Int} (hn : 0 ≤ n ∧ n < 2 ^ 31)
    {sep : Byte} (hsep : isSpace sep = true) (rest : Bytes) :
    readInt (ws ++ (encodeInt n ++ sep :: rest)) = some (n, sep :: rest) := by
  rw [encodeInt, if_neg (by omega), readInt, readNumber_toDecimal ws hws _ hsep rest]
  simp only [Bool.false_eq_true, if_false]
  rw [if_neg (by omega)]
  congr 2
  omega

theorem readString_token (ws : Bytes) (hws : ∀ b ∈ ws, isSpace b = true) {key : Bytes} (hk : Token key) {sep : Byte}
    (hsep : isSpace sep = true) (rest : Bytes) :
    readString (ws ++ (key ++ sep :: rest)) = some (key, sep :: rest) := by
  have hall : ∀ x ∈ key, (!isSpace x) = true := fun x hx => by simp [hk.2 x hx]
  have htake := takeWhile_append_cons hall (b := sep) (by simp [hsep]) rest
  have hdrop := dropWhile_append_cons hall (b := sep) (by simp [hsep]) rest
  have hskip : (ws ++ (key ++ sep :: rest)).dropWhile isSpace = key ++ sep :: rest := by
    rw [List.dropWhile_append_of_pos hws]
    cases key with
    | nil => exact absurd rfl hk.1
    | cons b key => exact List.dropWhile_cons_of_neg (by simp [hk.2 b List.mem_cons_self])
  rw [readString, hskip]
  simp only [htake, hdrop, hk.1, if_false]

/-- A line is read back; the newline in front of it is skipped, the newline behind it is left. -/
theorem readLine_encodeLine {l : ManifestLine} (h : l.Readable) (ws : Bytes) (hws : ∀ b ∈ ws, isSpace b = true)
    (rest : Bytes) : readLine (ws ++ (encodeLine l ++ rest)) = some (l, newline :: rest) := by
  have hs : isSpace space = true := rfl
  have hn : isSpace newline = true := rfl
  have hspace : ∀ b ∈ [space], isSpace b = true := by simp [hs]
  have e : encodeLine l ++ rest = toDecimal l.fileId ++ space :: (encodeInt l.level ++ space :: (toDecimal l.numEntries ++
      space :: (l.smallestKey ++ space :: (l.largestKey ++ newline :: rest)))) := by simp [encodeLine]
  rw [e, readLine, readUnsigned_toDecimal ws hws h.fileId hs]
  simp only
  rw [show ∀ x : Bytes, space :: x = [space] ++ x from fun _ => rfl, readInt_encodeInt _ hspace h.level hs]
  simp only
  rw [show ∀ x : Bytes, space :: x = [space] ++ x from fun _ => rfl, readUnsigned_toDecimal _ hspace h.numEntries hs]
  simp only
  rw [show ∀ x : Bytes, space :: x = [space] ++ x from fun _ => rfl, readString_token _ hspace h.smallestKey hs]
  simp only
  rw [show ∀ x : Bytes, space :: x = [space] ++ x from fun _ => rfl, readString_token _ hspace h.largestKey hn]

/-- Lines that can be read are read in front of any text. -/
theorem readLines_append (text : Bytes) : ∀ (lines : List ManifestLine) (fuel : Nat), (∀ l ∈ lines, l.Readable) →
    lines.length ≤ fuel → readLines fuel (newline :: ((lines.map encodeLine).flatten ++ text)) =
      lines ++ readLines (fuel - lines.length) (newline :: text)
  | [], fuel, _, _ => rfl
  | l :: lines, 0, _, hf => absurd hf (by simp)
  | l :: lines, fuel + 1, h, hf => by
    have hnl : ∀ b ∈ [newline], isSpace b = true := by simp [show isSpace newline = true from rfl]
    have hread := readLine_encodeLine (h l List.mem_cons_self) [newline] hnl ((lines.map encodeLine).flatten ++ text)
    have ih := readLines_append text lines fuel (fun l' h' => h l' (List.mem_cons_of_mem _ h')) (by simpa using hf)
    rw [List.map_cons, List.flatten_cons, List.append_assoc, readLines,
      show ∀ x : Bytes, newline :: x = [newline] ++ x from fun _ => rfl, hread]
    simp only
    rw [ih, List.length_cons, Nat.add_sub_add_right]
    rfl

theorem length_encodeLines (lines : List ManifestLine) : lines.length ≤ (lines.map encodeLine).flatten.length := by
  induction lines with
  | nil => exact Nat.le_refl _
  | cons l lines ih =>
    have : 0 < (encodeLine l).length := by
      simp only [encodeLine, List.length_append, List.length_cons]
      omega
    simp only [List.map_cons, List.flatten_cons, List.length_cons, List.length_append]
    omega

/-- The text behind the next table id is read line by line. -/
theorem parseManifest_lines {nextSstableId : Nat} (hn : nextSstableId < 2 ^ 32) (lines : List ManifestLine) :
    parseManifest (encodeManifest nextSstableId lines) = (nextSstableId,
      readLines ((lines.map encodeLine).flatten.length + 1) (newline :: (lines.map encodeLine).flatten)) := by
  have := readUnsigned_toDecimal (w := 32) [] (by simp) hn (show isSpace newline = true from rfl)
    (lines.map encodeLine).flatten
  rw [List.nil_append] at this
  rw [parseManifest, encodeManifest, this]
  rfl

/-- **The manifest is read back**, when the keys are tokens. -/
theorem parseManifest_encode {nextSstableId : Nat} (hn : nextSstableId < 2 ^ 32) {lines : List ManifestLine}
    (h : ∀ l ∈ lines, l.Readable) : parseManifest (encodeManifest nextSstableId lines) = (nextSstableId, lines) := by
  have hlen := length_encodeLines lines
  have hread := readLines_append [] lines ((lines.map encodeLine).flatten.length + 1) h (by omega)
  have hend : ∀ n, readLines n [newline] = [] := by
    intro n
    cases n with
    | zero => rfl
    | succ n => rfl
  rw [List.append_nil, hend, List.append_nil] at hread
  rw [parseManifest_lines hn, hread]

end SplitKV

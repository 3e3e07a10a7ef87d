import SplitKV.Lib.Lines
import SplitKV.Session
import SplitKV.Manifest

/-!
# The server (`tools/server.cpp`)

`handle_client` appends what it reads to a buffer and serves the lines in it. It looks for a line that ends in `"\r\n"`
first, anywhere in the buffer, and for `"\n"` only when there is none. So a line that ends in a bare `"\n"` is taken
together with what follows it when a `"\r\n"` has arrived, too. What is served does not depend on how the stream arrives
exactly when no read can hold a bare `"\n"` with a `"\r\n"` behind it (`packet_independent_iff`).
-/

namespace SplitKV

/-- The bytes of a text. -/
def text (s : String) : Bytes := s.toList.map fun c => byte c.toNat

/-- `Status::ToString`. -/
def Status.toText (s : Status) : Bytes :=
  match s.code with
  | .ok => text "OK"
  | .notFound => text "NotFound: " ++ text s.msg
  | .corruption => text "Corruption: " ++ text s.msg
  | .ioError => text "IOError: " ++ text s.msg
  | .invalidArgument => text "InvalidArgument: " ++ text s.msg
  | .notSupported => text "NotSupported: " ++ text s.msg

/-- `GetStats`. -/
def DB.getStats (db : DB) : Bytes :=
  text "Sequence Number: " ++ toDecimal db.sequenceNumber ++ text "\n" ++
  text "VLog File ID: " ++ toDecimal db.vlog.currentFileId ++ text ", Offset: " ++ toDecimal db.vlog.currentOffset ++
    text "\n" ++
  text "Active MemTable Count: " ++ toDecimal db.memtable.count ++ text "\n" ++
  text "Active MemTable Memory: " ++ toDecimal db.memtable.memoryUsage ++ text "\n" ++
  text "Active MemTable Limit: " ++ toDecimal db.options.memtableSizeLimit ++ text "\n" ++
  text "Immutable MemTables: " ++ toDecimal db.immutableMemtables.length ++ text "\n" ++
  (List.range db.options.maxSstableLevels).flatMap fun i =>
    text "Level " ++ toDecimal i ++ text " SSTables: " ++ toDecimal (db.levels i).length ++ text "\n"

namespace Server

/-- What the server calls of `DB`, on databases `σ`. -/
structure Database (σ : Type) where
  put : σ → Bytes → Bytes → σ × Except Status Unit
  get : σ → Bytes → σ × Except Status Bytes
  delete : σ → Bytes → σ × Except Status Unit
  getStats : σ → Bytes

/-- `DBImpl` without failures of the disk. -/
def engine : Database DB where
  put db key value := db.write false [.put key value] {}
  get db key := (db, db.get key)
  delete db key := db.write false [.delete key] {}
  getStats := DB.getStats

/-! ## Commands -/

/-- What a line asks for. -/
inductive Request where
  | ping
  | put (key value : Bytes)
  | get (key : Bytes)
  | del (key : Bytes)
  | stats
  | unknown
  deriving DecidableEq

/-- `iss >> word`: a word that is not there stays empty. -/
def extract (s : Bytes) : Bytes × Bytes := (readString s).getD ([], [])

/-- The command of a line, and its arguments. -/
def parseRequest (line : Bytes) : Request :=
  let (cmd, rest) := extract line
  if cmd = text "PING" then .ping
  else if cmd = text "PUT" then
    let (key, rest) := extract rest
    .put key (extract rest).1
  else if cmd = text "GET" then .get (extract rest).1
  else if cmd = text "DEL" then .del (extract rest).1
  else if cmd = text "STATS" then .stats
  else .unknown

/-- A string of the reply, with its length. -/
def bulk (value : Bytes) : Bytes := text "$" ++ toDecimal value.length ++ text "\r\n" ++ value ++ text "\r\n"

/-- The reply to a status. -/
def reply : Except Status Unit → Bytes
  | .ok () => text "+OK\r\n"
  | .error s => text "-ERR " ++ s.toText ++ text "\r\n"

/-- The call of the database, and the response. -/
def execute {σ : Type} (D : Database σ) (db : σ) : Request → σ × Bytes
  | .ping => (db, text "+PONG\r\n")
  | .put key value =>
    let (db, s) := D.put db key value
    (db, reply s)
  | .get key =>
    match D.get db key with
    | (db, .ok value) => (db, bulk value)
    | (db, .error s) => (db, if s.isNotFound then text "$-1\r\n" else reply (.error s))
  | .del key =>
    let (db, s) := D.delete db key
    (db, reply s)
  | .stats => (db, bulk (D.getStats db))
  | .unknown => (db, text "-ERR unknown command\r\n")

/-! ## The loop of `handle_client` -/

def carriageReturn : Byte := byte 13

/-- The state of a connection: the buffer, the database, and the requests that were executed with their responses. -/
structure Client (σ : Type) where
  request : Bytes := []
  db : σ
  log : List (Request × Bytes) := []

section

variable {σ : Type} (D : Database σ)

/-- A line is executed, and the response sent. -/
def Client.serve (c : Client σ) (line : Bytes) : Client σ :=
  let (db, response) := execute D c.db (parseRequest line)
  { c with db := db, log := c.log ++ [(parseRequest line, response)] }

/-- `request.find("\r\n")`, and when there is none `request.find("\n")`. -/
def linePos (request : Bytes) : Option Nat :=
  match Lines.find [carriageReturn, newline] request with
  | some pos => some pos
  | none => Lines.find [newline] request

/-- The inner loop; every iteration takes bytes of the buffer. -/
def Client.takeLines : Nat → Client σ → Client σ
  | 0, c => c
  | n + 1, c =>
    match linePos c.request with
    | none => c
    | some pos =>
      let line := c.request.take pos
      let request := c.request.drop (pos + if c.request[pos]? = some carriageReturn then 2 else 1)
      Client.takeLines n ({ c with request := request }.serve D line)

/-- What a read returned is appended and served. -/
def Client.handleChunk (c : Client σ) (chunk : Bytes) : Client σ :=
  { c with request := c.request ++ chunk }.takeLines D (c.request ++ chunk).length

/-- `handle_client`: the reads one after the other. -/
def handleClient (db : σ) (chunks : List Bytes) : Client σ := chunks.foldl (Client.handleChunk D) { db := db }

/-- What reads of a stream can return: at least a byte, and at most as many as `buffer` holds. -/
def Reads (stream : Bytes) (chunks : List Bytes) : Prop :=
  chunks.flatten = stream ∧ ∀ chunk ∈ chunks, 1 ≤ chunk.length ∧ chunk.length ≤ 4096

/-- The lines of a stream, each ended by `"\n"` or `"\r\n"`, served one by one. -/
def served (db : σ) (stream : Bytes) : Client σ :=
  (Lines.lines newline carriageReturn stream).foldl (Client.serve D) { db := db }

/-- **The protocol does not depend on the packets**: however the stream is read, the same requests are executed with the
same responses, one for each line in order, and leave the same database. -/
def PacketIndependent (db : σ) (stream : Bytes) : Prop :=
  ∀ chunks, Reads stream chunks →
    (handleClient D db chunks).log = (served D db stream).log ∧ (handleClient D db chunks).db = (served D db stream).db

end

/-! ## Line ends -/

/-- A text holds a bare `"\n"` with a `"\r\n"` behind it. -/
def Mixed (s : Bytes) : Prop :=
  ∃ a b c, s = a ++ newline :: (b ++ carriageReturn :: newline :: c) ∧ a.getLast? ≠ some carriageReturn

/-- A `"\r\n"` ends the first line, or stands behind its end. -/
theorem crlf_cases {a rest x y : Bytes} (ha : newline ∉ a)
    (h : a ++ newline :: rest = x ++ ([carriageReturn, newline] ++ y)) :
    a = x ++ [carriageReturn] ∧ rest = y ∨
      ∃ z, x = a ++ newline :: z ∧ rest = z ++ carriageReturn :: newline :: y := by
  have hsplit : a ++ newline :: rest = (x ++ [carriageReturn]) ++ newline :: y := by
    rw [h, List.append_assoc]
    rfl
  rcases List.append_eq_append_iff.mp hsplit with ⟨a', hx, hr⟩ | ⟨c', ha', hy⟩
  · cases a' with
    | nil =>
      rw [List.append_nil] at hx
      cases hr
      exact Or.inl ⟨hx.symm, rfl⟩
    | cons n z =>
      rw [List.cons_append] at hr
      obtain ⟨rfl, rfl⟩ := List.cons.inj hr
      -- what stands between the two line feeds ends with the carriage return
      rcases List.eq_nil_or_concat z with rfl | ⟨z', e, rfl⟩
      · have hlast := congrArg List.getLast? hx
        rw [List.getLast?_concat, List.getLast?_concat] at hlast
        cases hlast
      · rw [List.concat_eq_append, ← List.cons_append, ← List.append_assoc] at hx
        obtain ⟨hx', he⟩ := List.append_inj' hx rfl
        cases he
        exact Or.inr ⟨z', hx', by rw [List.concat_eq_append, List.append_assoc]; rfl⟩
  · cases c' with
    | nil =>
      rw [List.append_nil] at ha'
      cases hy
      exact Or.inl ⟨ha', rfl⟩
    | cons n c' =>
      rw [List.cons_append] at hy
      obtain ⟨rfl, -⟩ := List.cons.inj hy
      exact absurd (by rw [ha']; simp) ha

/-- A line ends in one of two ways. -/
def Ending (e : Bytes) : Prop := e = [carriageReturn, newline] ∨ e = [newline]

theorem linePos_none {s : Bytes} (h : newline ∉ s) : linePos s = none := by
  have hcrlf : Lines.find [carriageReturn, newline] s = none :=
    Lines.find_eq_none fun a b he => h (by rw [he]; simp)
  rw [linePos, hcrlf]
  exact Lines.find_eq_none fun a b he => h (by rw [he]; simp)

theorem not_mem_of_linePos {s : Bytes} (h : linePos s = none) : newline ∉ s := by
  intro hm
  obtain ⟨a, b, hab, -⟩ := List.eq_append_cons_of_mem hm
  obtain ⟨pos, -, hf⟩ := Lines.find_append [newline] b a
  rw [List.singleton_append, ← hab] at hf
  rw [linePos] at h
  split at h
  · cases h
  · rw [hf] at h
    cases h

/-- What is found is the end of a line. -/
theorem linePos_some {s : Bytes} {pos : Nat} (h : linePos s = some pos) :
    ∃ line ending rest, Ending ending ∧ s = line ++ (ending ++ rest) ∧ line.length = pos := by
  rw [linePos] at h
  split at h
  · rename_i hf
    cases h
    obtain ⟨rest, hs, hle⟩ := Lines.find_some hf
    exact ⟨_, _, rest, Or.inl rfl, hs, by rw [List.length_take]; omega⟩
  · obtain ⟨rest, hs, hle⟩ := Lines.find_some h
    exact ⟨_, _, rest, Or.inr rfl, hs, by rw [List.length_take]; omega⟩

/-- A line that ends in `"\r\n"`, in front of any other line. -/
theorem linePos_crlf {line : Bytes} (h : newline ∉ line) (rest : Bytes) :
    linePos (line ++ ([carriageReturn, newline] ++ rest)) = some line.length := by
  have hfirst : Lines.find [carriageReturn, newline] (line ++ ([carriageReturn, newline] ++ rest)) = some line.length := by
    refine Lines.find_eq_some fun a' b' he => ?_
    have hmem : newline ∉ line ++ [carriageReturn] := by
      simp only [List.mem_append, List.mem_singleton, not_or]
      exact ⟨h, by decide⟩
    have he' : (line ++ [carriageReturn]) ++ newline :: rest = a' ++ ([carriageReturn, newline] ++ b') := by
      rw [← he, List.append_assoc]
      rfl
    rcases crlf_cases hmem he' with ⟨ha, -⟩ | ⟨z, ha, -⟩
    · have hlen := congrArg List.length ha
      simp only [List.length_append, List.length_cons, List.length_nil] at hlen
      omega
    · rw [ha]
      simp only [List.length_append, List.length_cons, List.length_nil]
      omega
  rw [linePos, hfirst]

/-- A line that ends in a bare `"\n"`, with no `"\r\n"` behind it. -/
theorem linePos_lf {line rest : Bytes} (h : newline ∉ line) (hm : ¬Mixed (line ++ newline :: rest))
    (hc : line.getLast? ≠ some carriageReturn) : linePos (line ++ ([newline] ++ rest)) = some line.length := by
  have hnone : Lines.find [carriageReturn, newline] (line ++ ([newline] ++ rest)) = none := by
    refine Lines.find_eq_none fun a b he => ?_
    rcases crlf_cases h he with ⟨ha, -⟩ | ⟨z, -, hz⟩
    · exact hc (by rw [ha, List.getLast?_concat])
    · have hz' : rest = z ++ carriageReturn :: newline :: b := hz
      exact hm ⟨line, z, b, by rw [hz'], hc⟩
  rw [linePos, hnone]
  refine Lines.find_eq_some fun a' b' he => ?_
  by_contra hlt
  -- an earlier line feed would be one of the line
  rcases List.append_eq_append_iff.mp he with ⟨w, ha, -⟩ | ⟨w, hl, hw⟩
  · exact hlt (by rw [ha, List.length_append]; omega)
  · cases w with
    | nil => exact hlt (by rw [hl, List.append_nil])
    | cons n w =>
      rw [List.singleton_append, List.cons_append] at hw
      obtain ⟨rfl, -⟩ := List.cons.inj hw
      exact h (by rw [hl]; simp)

/-- **With a bare `"\n"` in front of a `"\r\n"`**, what is found lies behind the first line. -/
theorem linePos_mixed {a b c : Bytes} (ha : newline ∉ a) (hc : a.getLast? ≠ some carriageReturn) :
    ∃ pos, linePos (a ++ newline :: (b ++ carriageReturn :: newline :: c)) = some pos ∧ a.length < pos := by
  have hs : a ++ newline :: (b ++ carriageReturn :: newline :: c) =
      (a ++ newline :: b) ++ ([carriageReturn, newline] ++ c) := by
    rw [List.append_assoc]
    rfl
  obtain ⟨pos, -, hf⟩ := Lines.find_append [carriageReturn, newline] c (a ++ newline :: b)
  rw [← hs] at hf
  refine ⟨pos, by rw [linePos, hf], ?_⟩
  obtain ⟨rest, he, hle⟩ := Lines.find_some hf
  rcases crlf_cases ha he with ⟨htake, -⟩ | ⟨z, htake, -⟩
  · exact absurd (by rw [htake, List.getLast?_concat]) hc
  · have hlen := congrArg List.length htake
    have hz : (a ++ newline :: z).length = a.length + (z.length + 1) := by
      rw [List.length_append, List.length_cons]
    rw [List.length_take] at hlen
    omega

theorem getLast?_behind (a b : Bytes) (h : b.getLast? ≠ some carriageReturn) :
    (a ++ newline :: b).getLast? ≠ some carriageReturn := by
  rw [List.getLast?_append_of_ne_nil _ (List.cons_ne_nil _ _), List.getLast?_cons]
  cases hb : b.getLast? with
  | none => decide
  | some x => rwa [hb] at h

theorem not_mixed_rest {a rest : Bytes} (h : ¬Mixed (a ++ newline :: rest)) : ¬Mixed rest := by
  rintro ⟨b, c, d, rfl, hb⟩
  exact h ⟨a ++ newline :: b, c, d, by rw [List.append_assoc]; rfl, getLast?_behind a b hb⟩

/-- **The first line** is what is found, when no line ends in a bare `"\n"` in front of a `"\r\n"`. -/
theorem linePos_first {a rest : Bytes} (ha : newline ∉ a) (hm : ¬Mixed (a ++ newline :: rest)) :
    ∃ ending, Ending ending ∧ a ++ newline :: rest = Lines.strip carriageReturn a ++ (ending ++ rest) ∧
      linePos (a ++ newline :: rest) = some (Lines.strip carriageReturn a).length := by
  by_cases hc : a.getLast? = some carriageReturn
  · obtain ⟨line, rfl⟩ := List.getLast?_eq_some_iff.mp hc
    have hline : newline ∉ line := fun h => ha (List.mem_append_left _ h)
    have hs : line ++ [carriageReturn] ++ newline :: rest = line ++ ([carriageReturn, newline] ++ rest) := by
      rw [List.append_assoc]
      rfl
    rw [Lines.strip, if_pos hc, List.dropLast_concat, hs]
    exact ⟨_, Or.inl rfl, rfl, linePos_crlf hline rest⟩
  · rw [Lines.strip, if_neg hc]
    exact ⟨_, Or.inr rfl, rfl, linePos_lf ha hm hc⟩

/-! ## Serving the buffer -/

section

variable {σ : Type} (D : Database σ)

/-- **An iteration** takes a line and its end from the buffer, and serves the line. -/
theorem Client.takeLines_step {c : Client σ} {line ending rest : Bytes} (hend : Ending ending)
    (hr : c.request = line ++ (ending ++ rest)) (hp : linePos c.request = some line.length) (n : Nat) :
    c.takeLines D (n + 1) = ({ c with request := rest }.serve D line).takeLines D n := by
  have hline : c.request.take line.length = line := by rw [hr, List.take_left]
  have hat : c.request[line.length]? = ending[0]? := by
    rw [hr, List.getElem?_append_right (Nat.le_refl _), Nat.sub_self]
    rcases hend with rfl | rfl
    · rfl
    · rfl
  have hrest : c.request.drop (line.length + if c.request[line.length]? = some carriageReturn then 2 else 1) = rest := by
    rw [hat, hr, ← List.drop_drop, List.drop_left]
    rcases hend with rfl | rfl
    · rfl
    · rfl
  rw [Client.takeLines, hp]
  simp only [hline, hrest]

theorem Client.serve_log (c : Client σ) (line : Bytes) : (c.serve D line).log.length = c.log.length + 1 := by
  rw [Client.serve, List.length_append]
  rfl

theorem Client.serve_request (c : Client σ) (request line : Bytes) :
    { c with request := request }.serve D line = { c.serve D line with request := request } := rfl

theorem Client.foldl_serve_request (request : Bytes) : ∀ (lines : List Bytes) (c : Client σ),
    lines.foldl (Client.serve D) { c with request := request } = { lines.foldl (Client.serve D) c with request := request }
  | [], _ => rfl
  | line :: lines, c => by
    rw [List.foldl_cons, Client.serve_request, Client.foldl_serve_request request lines, List.foldl_cons]

/-- **The loop** leaves the end of the buffer, in which no line ends, and serves at most one line for each `"\n"`. -/
theorem Client.takeLines_bound : ∀ (n : Nat) (c : Client σ), c.request.length ≤ n →
    (c.takeLines D n).request <:+ c.request ∧ newline ∉ (c.takeLines D n).request ∧
      (c.takeLines D n).log.length ≤ c.log.length + c.request.count newline
  | 0, c, hn => by
    have hnil : c.request = [] := List.length_eq_zero_iff.mp (Nat.le_zero.mp hn)
    refine ⟨List.suffix_refl _, ?_, Nat.le_add_right _ _⟩
    rw [Client.takeLines, hnil]
    exact List.not_mem_nil
  | n + 1, c, hn => by
    cases hp : linePos c.request with
    | none =>
      have hstop : c.takeLines D (n + 1) = c := by rw [Client.takeLines, hp]
      rw [hstop]
      exact ⟨List.suffix_refl _, not_mem_of_linePos hp, Nat.le_add_right _ _⟩
    | some pos =>
      obtain ⟨line, ending, rest, hend, hr, rfl⟩ := linePos_some hp
      have hcount : 1 ≤ ending.count newline ∧ 1 ≤ ending.length := by
        rcases hend with rfl | rfl
        · decide
        · decide
      rw [Client.takeLines_step D hend hr hp]
      have hlen := congrArg List.length hr
      have hnew := congrArg (List.count newline) hr
      rw [List.length_append, List.length_append] at hlen
      rw [List.count_append, List.count_append] at hnew
      have ih := Client.takeLines_bound n ({ c with request := rest }.serve D line) (by
        show rest.length ≤ n
        omega)
      have hreq : ({ c with request := rest }.serve D line).request = rest := rfl
      rw [Client.serve_log, hreq] at ih
      obtain ⟨hsuffix, hno, hlog⟩ := ih
      refine ⟨hsuffix.trans ⟨line ++ ending, by rw [hr, List.append_assoc]⟩, hno, ?_⟩
      have hlog' : (({ c with request := rest }.serve D line).takeLines D n).log.length ≤
          c.log.length + 1 + rest.count newline := hlog
      omega

/-- **With the line ends in order**, the loop serves the lines of the buffer. -/
theorem Client.takeLines_lines : ∀ (n : Nat) (c : Client σ), c.request.length ≤ n → ¬Mixed c.request →
    ∃ done rest, c.request = done ++ rest ∧ (done = [] ∨ done.getLast? = some newline) ∧ newline ∉ rest ∧
      c.takeLines D n = { (Lines.lines newline carriageReturn done).foldl (Client.serve D) c with request := rest }
  | 0, c, hn, _ => by
    obtain ⟨request, db, log⟩ := c
    obtain rfl : request = [] := List.length_eq_zero_iff.mp (Nat.le_zero.mp hn)
    exact ⟨[], [], rfl, Or.inl rfl, List.not_mem_nil, rfl⟩
  | n + 1, c, hn, hm => by
    by_cases hmem : newline ∈ c.request
    · obtain ⟨a, rest, hr, ha⟩ := List.eq_append_cons_of_mem hmem
      rw [hr] at hm
      obtain ⟨ending, hend, hline, hp⟩ := linePos_first ha hm
      rw [← hr] at hline hp
      rw [hr, List.length_append, List.length_cons] at hn
      obtain ⟨done, rest', hrest, hdone, hno, htake⟩ := Client.takeLines_lines n
        ({ c with request := rest }.serve D (Lines.strip carriageReturn a)) (show rest.length ≤ n by omega)
        (not_mixed_rest hm)
      have hrest' : rest = done ++ rest' := hrest
      refine ⟨a ++ newline :: done, rest', by rw [hr, hrest', List.append_assoc]; rfl, Or.inr ?_, hno, ?_⟩
      · rw [List.getLast?_append_of_ne_nil _ (List.cons_ne_nil _ _)]
        rcases hdone with rfl | hdone
        · rfl
        · rw [List.getLast?_cons, hdone]
          rfl
      · rw [Client.takeLines_step D hend hline hp, htake, Lines.lines_cons ha, List.foldl_cons, Client.serve_request,
          Client.foldl_serve_request]
    · refine ⟨[], c.request, rfl, Or.inl rfl, hmem, ?_⟩
      rw [Client.takeLines, linePos_none hmem]
      rfl

/-! ## Any packets -/

theorem Client.foldl_serve_log : ∀ (lines : List Bytes) (c : Client σ),
    (lines.foldl (Client.serve D) c).log.length = c.log.length + lines.length
  | [], _ => rfl
  | line :: lines, c => by
    rw [List.foldl_cons, Client.foldl_serve_log lines, Client.serve_log, List.length_cons]
    omega

theorem served_log (db : σ) (stream : Bytes) : (served D db stream).log.length = stream.count newline := by
  rw [served, Client.foldl_serve_log, Lines.length_lines stream.length stream (Nat.le_refl _)]
  exact Nat.zero_add _

/-- A line that is served ends at a `"\n"` of its own. -/
theorem Client.handleChunks_bound : ∀ (chunks : List Bytes) (c : Client σ), newline ∉ c.request →
    newline ∉ (chunks.foldl (Client.handleChunk D) c).request ∧
      (chunks.foldl (Client.handleChunk D) c).request <:+ c.request ++ chunks.flatten ∧
      (chunks.foldl (Client.handleChunk D) c).log.length ≤ c.log.length + chunks.flatten.count newline
  | [], c, h => ⟨h, by simp, Nat.le_add_right _ _⟩
  | chunk :: chunks, c, h => by
    obtain ⟨hsuffix, hno, hlog⟩ := Client.takeLines_bound D (c.request ++ chunk).length
      { c with request := c.request ++ chunk } (Nat.le_refl _)
    obtain ⟨hno', hsuffix', hlog'⟩ := Client.handleChunks_bound chunks (c.handleChunk D chunk) hno
    rw [List.foldl_cons, List.flatten_cons, List.count_append]
    refine ⟨hno', ?_, ?_⟩
    · obtain ⟨front, hfront⟩ := hsuffix
      refine hsuffix'.trans ⟨front, ?_⟩
      rw [← List.append_assoc, ← List.append_assoc]
      exact congrArg (· ++ chunks.flatten) hfront
    · simp only [List.count_append, List.count_eq_zero.mpr h, Nat.zero_add] at hlog
      have hlog'' : (c.handleChunk D chunk).log.length ≤ c.log.length + chunk.count newline := hlog
      omega

/-- **Two lines that are taken for one**: a read that holds a bare `"\n"` and a `"\r\n"` behind it. -/
theorem Client.handleChunk_merges {c : Client σ} (b : Bytes) (h : newline ∉ c.request)
    (hc : c.request.getLast? ≠ some carriageReturn) :
    (c.handleChunk D (newline :: (b ++ [carriageReturn, newline]))).log.length + 1 ≤
      c.log.length + (newline :: (b ++ [carriageReturn, newline])).count newline := by
  obtain ⟨pos, hp, hlt⟩ := @linePos_mixed c.request b [] h hc
  obtain ⟨line, ending, rest, hend, hr, rfl⟩ := linePos_some hp
  -- the line that is taken holds the bare line feed
  have hline : newline ∈ line := by
    have hpre : c.request ++ [newline] <+: line := by
      refine List.prefix_of_prefix_length_le ⟨b ++ [carriageReturn, newline], by rw [List.append_assoc]; rfl⟩
        ⟨ending ++ rest, hr.symm⟩ ?_
      rw [List.length_append]
      exact hlt
    exact hpre.subset (List.mem_append_right _ List.mem_cons_self)
  have hcount : 1 ≤ ending.count newline ∧ 1 ≤ ending.length := by
    rcases hend with rfl | rfl
    · decide
    · decide
  have hnew := congrArg (List.count newline) hr
  rw [List.count_append, List.count_append, List.count_append, List.count_eq_zero.mpr h] at hnew
  have hone : 1 ≤ line.count newline := List.count_pos_iff.mpr hline
  have hlen := congrArg List.length hr
  have hsum : (line ++ (ending ++ rest)).length = line.length + (ending.length + rest.length) := by
    rw [List.length_append, List.length_append]
  rw [hsum] at hlen
  obtain ⟨n, hn⟩ : ∃ n, (c.request ++ newline :: (b ++ [carriageReturn, newline])).length = n + 1 :=
    ⟨_, (Nat.succ_pred_eq_of_pos (by rw [List.length_append, List.length_cons]; omega)).symm⟩
  have hstep : { c with request := c.request ++ newline :: (b ++ [carriageReturn, newline]) }.takeLines D (n + 1) =
      ({ c with request := rest }.serve D line).takeLines D n := Client.takeLines_step D hend hr hp n
  obtain ⟨-, -, hlog⟩ := Client.takeLines_bound D n ({ c with request := rest }.serve D line)
    (show rest.length ≤ n by omega)
  rw [Client.serve_log] at hlog
  have hlog' : (({ c with request := rest }.serve D line).takeLines D n).log.length ≤
      c.log.length + 1 + rest.count newline := hlog
  rw [Client.handleChunk, hn, hstep]
  omega

/-- A buffer with mixed line ends, of which the last read brought all, lies in a stream with line ends so close. -/
theorem close_of_mixed {done request chunk rest : Bytes} (hd : done = [] ∨ done.getLast? = some newline)
    (hr : newline ∉ request) (hc : chunk.length ≤ 4096) (hm : Mixed (request ++ chunk)) :
    ∃ a b c, done ++ (request ++ (chunk ++ rest)) = a ++ newline :: (b ++ carriageReturn :: newline :: c) ∧
      a.getLast? ≠ some carriageReturn ∧ b.length + 3 ≤ 4096 := by
  obtain ⟨a, b, c, hs, ha⟩ := hm
  obtain ⟨a', ha', hchunk⟩ : ∃ a', a = request ++ a' ∧
      chunk = a' ++ newline :: (b ++ carriageReturn :: newline :: c) := by
    rcases List.append_eq_append_iff.mp hs with h | ⟨w, hreq, hw⟩
    · exact h
    · cases w with
      | nil =>
        rw [List.append_nil] at hreq
        exact ⟨[], by rw [hreq, List.append_nil], hw.symm⟩
      | cons n w =>
        rw [List.cons_append] at hw
        obtain ⟨rfl, -⟩ := List.cons.inj hw
        exact absurd (by rw [hreq]; simp) hr
  refine ⟨done ++ a, b, c ++ rest, ?_, ?_, ?_⟩
  · rw [← List.append_assoc request, hs]
    simp only [List.append_assoc, List.cons_append]
  · by_cases hnil : a = []
    · rw [hnil, List.append_nil]
      rcases hd with rfl | hd
      · nofun
      · rw [hd]
        decide
    · rwa [List.getLast?_append_of_ne_nil _ hnil]
  · have hlen := congrArg List.length hchunk
    simp only [List.length_append, List.length_cons] at hlen
    omega

/-- **Packets that bring no mixed line ends** are served line by line. -/
theorem Client.handleChunks_lines (db : σ) : ∀ (chunks : List Bytes) (done request : Bytes),
    (done = [] ∨ done.getLast? = some newline) → newline ∉ request → (∀ chunk ∈ chunks, chunk.length ≤ 4096) →
    (¬∃ a b c, done ++ (request ++ chunks.flatten) = a ++ newline :: (b ++ carriageReturn :: newline :: c) ∧
      a.getLast? ≠ some carriageReturn ∧ b.length + 3 ≤ 4096) →
    ∃ request', chunks.foldl (Client.handleChunk D) { served D db done with request := request } =
      { served D db (done ++ (request ++ chunks.flatten)) with request := request' }
  | [], done, request, hd, hr, _, _ => by
    refine ⟨request, ?_⟩
    have hlines : Lines.lines newline carriageReturn (done ++ (request ++ [])) =
        Lines.lines newline carriageReturn done := by
      rw [Lines.lines_append _ _ done (Nat.le_refl _) hd, List.append_nil, Lines.lines_of_not_mem hr, List.append_nil]
    rw [List.flatten_nil, served, served, hlines]
    rfl
  | chunk :: chunks, done, request, hd, hr, hc, hclose => by
    have hmixed : ¬Mixed (request ++ chunk) := fun hm =>
      hclose (close_of_mixed hd hr (hc chunk List.mem_cons_self) hm)
    obtain ⟨front, request', hsplit, hfront, hno, htake⟩ := Client.takeLines_lines D (request ++ chunk).length
      { served D db done with request := request ++ chunk } (Nat.le_refl _) hmixed
    have hsplit' : request ++ chunk = front ++ request' := hsplit
    have hlines : (Lines.lines newline carriageReturn front).foldl (Client.serve D) (served D db done) =
        served D db (done ++ front) := by
      rw [served, served, Lines.lines_append _ _ done (Nat.le_refl _) hd, List.foldl_append]
    have hdone : done ++ front = [] ∨ (done ++ front).getLast? = some newline := by
      by_cases hnil : front = []
      · rw [hnil, List.append_nil]
        exact hd
      · rw [List.getLast?_append_of_ne_nil _ hnil]
        exact Or.inr (hfront.resolve_left hnil)
    have hall : done ++ (request ++ (chunk :: chunks).flatten) = (done ++ front) ++ (request' ++ chunks.flatten) := by
      rw [List.flatten_cons, ← List.append_assoc request, hsplit']
      simp only [List.append_assoc]
    rw [hall] at hclose ⊢
    rw [List.foldl_cons, Client.handleChunk]
    rw [Client.foldl_serve_request, hlines] at htake
    obtain ⟨request'', hrest⟩ := Client.handleChunks_lines db chunks (done ++ front) request' hdone hno
      (fun x hx => hc x (List.mem_cons_of_mem _ hx)) hclose
    refine ⟨request'', ?_⟩
    rw [← hrest]
    exact congrArg (chunks.foldl (Client.handleChunk D)) htake

/-- **`handle_client` does not depend on the packets** exactly when no `"\n"` without a `"\r"` in front of it is followed
by a `"\r\n"` that ends within the 4096 bytes of one read. -/
theorem packet_independent_iff (db : σ) (stream : Bytes) : PacketIndependent D db stream ↔
    ¬∃ a b c, stream = a ++ newline :: (b ++ carriageReturn :: newline :: c) ∧
      a.getLast? ≠ some carriageReturn ∧ b.length + 3 ≤ 4096 := by
  constructor
  · rintro hind ⟨a, b, c, rfl, ha, hb⟩
    -- one read brings the two line ends, the others a byte each
    let bytes : Bytes → List Bytes := fun s => s.map fun x => [x]
    have hbytes : ∀ s : Bytes, (bytes s).flatten = s := fun s => List.flatMap_singleton' s
    have hone : ∀ s : Bytes, ∀ chunk ∈ bytes s, 1 ≤ chunk.length ∧ chunk.length ≤ 4096 := by
      intro s chunk hc
      obtain ⟨x, -, rfl⟩ := List.mem_map.mp hc
      exact ⟨Nat.le_refl 1, by simp⟩
    have hreads : Reads (a ++ newline :: (b ++ carriageReturn :: newline :: c))
        (bytes a ++ (newline :: (b ++ [carriageReturn, newline])) :: bytes c) := by
      constructor
      · rw [List.flatten_append, List.flatten_cons, hbytes, hbytes, List.cons_append, List.append_assoc]
        rfl
      · intro chunk hc
        rcases List.mem_append.mp hc with hc | hc
        · exact hone a chunk hc
        · rcases List.mem_cons.mp hc with rfl | hc
          · simp only [List.length_cons, List.length_append, List.length_nil]
            omega
          · exact hone c chunk hc
    obtain ⟨hno, hsuffix, hlog⟩ := Client.handleChunks_bound D (bytes a) { db := db } List.not_mem_nil
    have hlast : ((bytes a).foldl (Client.handleChunk D) { db := db }).request.getLast? ≠ some carriageReturn := by
      rw [hbytes, List.nil_append] at hsuffix
      obtain ⟨front, hfront⟩ := hsuffix
      by_cases hnil : ((bytes a).foldl (Client.handleChunk D) { db := db }).request = []
      · rw [hnil]
        nofun
      · rwa [← hfront, List.getLast?_append_of_ne_nil _ hnil] at ha
    have hmerge := Client.handleChunk_merges D b hno hlast
    obtain ⟨hno', -, -⟩ := Client.handleChunks_bound D [newline :: (b ++ [carriageReturn, newline])] _ hno
    obtain ⟨-, -, hlog'⟩ := Client.handleChunks_bound D (bytes c) _ hno'
    have hserved := congrArg List.length (hind _ hreads).1
    rw [served_log, handleClient, List.foldl_append, List.foldl_cons] at hserved
    rw [List.foldl_cons, List.foldl_nil] at hlog'
    rw [hbytes] at hlog hlog'
    have hcount : (a ++ newline :: (b ++ carriageReturn :: newline :: c)).count newline =
        a.count newline + (newline :: (b ++ [carriageReturn, newline])).count newline + c.count newline := by
      rw [← List.count_append, ← List.count_append, List.append_assoc, List.cons_append, List.append_assoc]
      rfl
    have hstart : ({ db := db } : Client σ).log.length = 0 := rfl
    omega
  · rintro hclose chunks ⟨rfl, hchunks⟩
    obtain ⟨request, h⟩ := Client.handleChunks_lines D db chunks [] [] (Or.inl rfl) List.not_mem_nil
      (fun chunk hc => (hchunks chunk hc).2) hclose
    have hstart : handleClient D db chunks = { served D db chunks.flatten with request := request } := h
    rw [hstart]
    exact ⟨rfl, rfl⟩

/-- **A `DEL` that gets lost**: in one packet, the lines `PUT a 1` and `DEL a` are taken for one. -/
theorem packet_merges_lines :
    let stream := text "PUT a 1\nDEL a\r\n"
    Reads stream [stream] ∧ (handleClient engine (DB.fresh {}) [stream]).log.map Prod.fst = [.put [97] [49]] ∧
      (served engine (DB.fresh {}) stream).log.map Prod.fst = [.put [97] [49], .del [97]] ∧
      ¬PacketIndependent engine (DB.fresh {}) stream := by
  have hreads : Reads (text "PUT a 1\nDEL a\r\n") [text "PUT a 1\nDEL a\r\n"] := by
    unfold Reads
    decide +kernel
  have hone : (handleClient engine (DB.fresh {}) [text "PUT a 1\nDEL a\r\n"]).log.map Prod.fst = [.put [97] [49]] := by
    decide +kernel
  have htwo : (served engine (DB.fresh {}) (text "PUT a 1\nDEL a\r\n")).log.map Prod.fst =
      [.put [97] [49], .del [97]] := by
    decide +kernel
  refine ⟨hreads, hone, htwo, fun h => ?_⟩
  have hlog := (h _ hreads).1
  rw [hlog, htwo] at hone
  cases hone

end

end Server

end SplitKV

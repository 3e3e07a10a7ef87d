import SplitKV.Lib.PrefixCode
import SplitKV.Tools.Cli

/-!
# The clients of the server (`tools/server.cpp`)

Every connection has a thread of its own, all of them call one database, and its background thread works in between. In every
interleaving of what the threads do, the responses are those of one map that takes the requests in the order of their calls
(`clients_served`), and every client can tell its responses apart (`responses_decodable`).
-/

namespace SplitKV

namespace Server

/-! ## The threads -/

/-- The server: the database, the buffer of every connection, and the requests that were executed, with their clients and
responses. -/
structure System where
  db : DB
  request : Nat → Bytes := fun _ => []
  log : List (Nat × Request × Bytes) := []

/-- A step of the server: a read of a connection returns, a thread takes a line of its buffer, a connection is closed, or the
background thread takes a step. -/
inductive Step
  | recv (i : Nat) (chunk : Bytes)
  | line (i : Nat)
  | close (i : Nat)
  | flush
  | compactLevel (lvl : Int)

/-- The bytes a step reads. -/
def Step.received : Step → Nat
  | recv _ chunk => chunk.length
  | _ => 0

namespace System

/-- A thread reads, and sees the end of its connection, only when it found no more line. -/
def next (s : System) : Step → System
  | .recv i chunk =>
    if linePos (s.request i) = none then { s with request := setAt s.request i (s.request i ++ chunk) } else s
  | .line i =>
    match linePos (s.request i) with
    | none => s
    | some pos =>
      let line := (s.request i).take pos
      let request := (s.request i).drop (pos + if (s.request i)[pos]? = some carriageReturn then 2 else 1)
      let c := { request := request, db := s.db : Client DB }.serve engine line
      { db := c.db, request := setAt s.request i c.request, log := s.log ++ c.log.map fun r => (i, r) }
  | .close i => if linePos (s.request i) = none then { s with request := setAt s.request i [] } else s
  | .flush => { s with db := s.db.flushFront {} }
  | .compactLevel lvl => { s with db := (s.db.compactLevel lvl .none).1 }

/-- What a client was sent. -/
def responses (s : System) (i : Nat) : List Bytes := (s.log.filter fun r => r.1 = i).map fun r => r.2.2

/-- No buffer comes near 4 GiB. -/
def Short (s : System) : Prop := ∀ i, (s.request i).length + 29 < 2 ^ 32

end System

/-- The server when it has opened a new directory. -/
def started (o : Options) : System := { db := DB.fresh o }

namespace Request

/-- The entries a request writes. -/
def entries : Request → WriteBatch
  | put key value => [.put key value]
  | del key => [.delete key]
  | _ => []

/-- What a map answers to a request; the statistics are not those of a map. -/
def expected (m : Contents) : Request → Option Bytes
  | ping => some (text "+PONG\r\n")
  | put _ _ | del _ => some (text "+OK\r\n")
  | get key => some (match m key with
    | some value => bulk value
    | none => text "$-1\r\n")
  | stats => none
  | unknown => some (text "-ERR unknown command\r\n")

end Request

/-- A map takes a request with its response, unless it would have answered otherwise. -/
def accept (m : Contents) (r : Nat × Request × Bytes) : Option Contents :=
  if (r.2.1.expected m).all (fun e => decide (r.2.2 = e)) then some (WriteBatch.apply m r.2.1.entries) else none

/-! ## The form of a response -/

/-- What the server sends for a request: a line of text, or a value with its length in front of it. -/
inductive IsResponse : Bytes → Prop
  | simple (s : Bytes) (h : carriageReturn ∉ s) : IsResponse (text "+" ++ s ++ text "\r\n")
  | error (s : Bytes) (h : carriageReturn ∉ s) : IsResponse (text "-" ++ s ++ text "\r\n")
  | null : IsResponse (text "$-1\r\n")
  | bulk (value : Bytes) : IsResponse (bulk value)

/-! ## Words of a line -/

theorem extract_length (s : Bytes) : (extract s).1.length + (extract s).2.length ≤ s.length := by
  unfold extract readString
  simp only
  split
  · simp
  · have hsplit := congrArg List.length
      (List.takeWhile_append_dropWhile (p := fun b => !isSpace b) (l := s.dropWhile isSpace))
    have hdrop := (List.dropWhile_suffix (p := isSpace) (l := s)).length_le
    rw [List.length_append] at hsplit
    simp only [Option.getD_some]
    omega

/-- A line has room for the key and the value it names. -/
theorem entries_parseRequest {line : Bytes} (h : line.length + 29 < 2 ^ 32) :
    ∀ e ∈ (parseRequest line).entries, e.Fits := by
  have hcmd := extract_length line
  have hkey := extract_length (extract line).2
  have hvalue := extract_length (extract (extract line).2).2
  intro e he
  unfold parseRequest at he
  simp only at he
  split at he
  · cases he
  split at he
  · rw [List.mem_singleton.mp he]
    constructor
    · show 13 + _ + _ < _
      omega
    · omega
  split at he
  · cases he
  split at he
  · rw [List.mem_singleton.mp he]
    show 29 + _ < _
    omega
  split at he
  · cases he
  · cases he

/-! ## One request -/

section

variable {db : DB} {m : Contents}

/-- **A request**: the database stands for what the map holds behind it, and the response is the one of the map. -/
theorem execute_engine (h : db.Inv) (hr : db.Refines m) {req : Request} (hf : ∀ e ∈ req.entries, e.Fits) :
    db.Keeps (execute engine db req).1 m (WriteBatch.apply m req.entries) ∧
      ∀ e ∈ req.expected m, (execute engine db req).2 = e := by
  have hself : db.Keeps db m m := ⟨rfl, h, hr, fun hs => hs, fun hi => hi⟩
  cases req with
  | ping => exact ⟨hself, fun e he => by cases he; rfl⟩
  | stats => exact ⟨hself, fun e he => by cases he⟩
  | unknown => exact ⟨hself, fun e he => by cases he; rfl⟩
  | put key value =>
    obtain ⟨db', hw, hk⟩ := DB.write_spec h hr false hf
    have he : execute engine db (.put key value) = (db', reply (.ok ())) := by
      simp only [execute, engine, show db.write false [.put key value] {} = (db', .ok ()) from hw]
    rw [he]
    exact ⟨hk, fun e he => by cases he; rfl⟩
  | del key =>
    obtain ⟨db', hw, hk⟩ := DB.write_spec h hr false hf
    have he : execute engine db (.del key) = (db', reply (.ok ())) := by
      simp only [execute, engine, show db.write false [.delete key] {} = (db', .ok ()) from hw]
    rw [he]
    exact ⟨hk, fun e he => by cases he; rfl⟩
  | get key =>
    rcases DB.get_cases (hr.result h key) with ⟨value, hm, hg⟩ | ⟨hm, s, hg, hnf⟩
    · simp only [execute, engine, hg, Request.expected, hm]
      exact ⟨hself, fun e he => by cases he; rfl⟩
    · simp only [execute, engine, hg, Request.expected, hm, hnf, if_true]
      exact ⟨hself, fun e he => by cases he; rfl⟩

theorem isResponse_expected {req : Request} {e : Bytes} (h : e ∈ req.expected m) : IsResponse e := by
  have hpong : text "+PONG\r\n" = text "+" ++ text "PONG" ++ text "\r\n" := by decide +kernel
  have hok : text "+OK\r\n" = text "+" ++ text "OK" ++ text "\r\n" := by decide +kernel
  have herr : text "-ERR unknown command\r\n" = text "-" ++ text "ERR unknown command" ++ text "\r\n" := by
    decide +kernel
  cases req with
  | ping =>
    cases h
    rw [hpong]
    exact .simple _ (by decide +kernel)
  | put key value =>
    cases h
    rw [hok]
    exact .simple _ (by decide +kernel)
  | del key =>
    cases h
    rw [hok]
    exact .simple _ (by decide +kernel)
  | stats => cases h
  | unknown =>
    cases h
    rw [herr]
    exact .error _ (by decide +kernel)
  | get key =>
    cases h
    cases m key with
    | none => exact .null
    | some value => exact .bulk value

/-- A request is answered in the form of a response. -/
theorem isResponse_execute {req : Request} (h : ∀ e ∈ req.expected m, (execute engine db req).2 = e) :
    IsResponse (execute engine db req).2 := by
  cases he : req.expected m with
  | some e => exact (h e he).symm ▸ isResponse_expected he
  | none =>
    cases req with
    | stats => exact .bulk _
    | ping | unknown | put _ _ | get _ | del _ => cases he

/-! ## Runs -/

/-- A map took the log of the server, and the database stands for it. -/
structure System.Served (s : System) (m : Contents) : Prop where
  log : s.log.foldlM accept (fun _ => none) = some m
  responses : ∀ r ∈ s.log, IsResponse r.2.2
  inv : s.db.Inv
  settled : s.db.Settled
  refines : s.db.Refines m

theorem accept_expected {r : Nat × Request × Bytes} (h : ∀ e ∈ r.2.1.expected m, r.2.2 = e) :
    accept m r = some (WriteBatch.apply m r.2.1.entries) := by
  have hall : (r.2.1.expected m).all (fun e => decide (r.2.2 = e)) = true := by
    cases he : r.2.1.expected m with
    | none => rfl
    | some e => simpa using h e he
  rw [accept, if_pos hall]

/-- The database changes, but neither its contents nor the log. -/
theorem System.Served.keeps {s : System} {db : DB} (h : s.Served m) (hk : s.db.Keeps db m m) :
    System.Served { s with db := db } m := ⟨h.log, h.responses, hk.inv, hk.settled h.settled, hk.refines⟩

/-- **A line** of any client. -/
theorem System.Served.line {s : System} (h : s.Served m) (hs : s.Short) (i : Nat) : ∃ m', (s.next (.line i)).Served m' := by
  rw [System.next]
  cases hp : linePos (s.request i) with
  | none => exact ⟨m, h⟩
  | some pos =>
    have hlen : ((s.request i).take pos).length + 29 < 2 ^ 32 :=
      lt_of_le_of_lt (Nat.add_le_add_right (List.length_take_le' _ _) _) (hs i)
    obtain ⟨hk, hout⟩ := execute_engine h.inv h.refines (entries_parseRequest hlen)
    refine ⟨_, ?_, fun _ hr => ?_, hk.inv, hk.settled h.settled, hk.refines⟩
    · simp only [Client.serve, List.nil_append, List.map_cons, List.map_nil, List.foldlM_append, h.log, Option.bind_eq_bind,
        Option.bind_some, List.foldlM_cons, List.foldlM_nil]
      rw [accept_expected hout]
      rfl
    · rcases List.mem_append.mp hr with hr | hr
      · exact h.responses _ hr
      · simp only [Client.serve, List.nil_append, List.map_cons, List.map_nil, List.mem_singleton] at hr
        rw [hr]
        exact isResponse_execute hout

/-- **A step** of the server. -/
theorem System.Served.next {s : System} (h : s.Served m) (hs : s.Short) (ev : Step) : ∃ m', (s.next ev).Served m' := by
  cases ev with
  | recv i chunk =>
    rw [System.next]
    split
    · exact ⟨m, h.log, h.responses, h.inv, h.settled, h.refines⟩
    · exact ⟨m, h⟩
  | line i => exact h.line hs i
  | close i =>
    rw [System.next]
    split
    · exact ⟨m, h.log, h.responses, h.inv, h.settled, h.refines⟩
    · exact ⟨m, h⟩
  | flush =>
    exact ⟨m, h.keeps (DB.flushFront_spec h.inv h.refines fun _ _ => Or.inr ⟨rfl, fun _ _ => rfl, rfl, rfl⟩)⟩
  | compactLevel lvl => exact ⟨m, h.keeps ((DB.compactLevel_spec h.inv.wf h.settled lvl).keeps h.inv h.refines)⟩

/-- **A run** of the server. -/
theorem System.Served.run {evs : List Step} {s : System} (h : s.Served m)
    (hs : Ledger.Throughout System.next (fun s _ => s.Short) s evs) : ∃ m', (Ledger.after System.next s evs).Served m' := by
  induction evs generalizing s m with
  | nil => exact ⟨m, h⟩
  | cons ev evs ih =>
    obtain ⟨hshort, hs⟩ := hs
    obtain ⟨m', h'⟩ := h.next hshort ev
    exact ih h' hs

theorem served_started {o : Options} (ho : 1 ≤ o.maxSstableLevels) : (started o).Served fun _ => none :=
  ⟨rfl, fun _ hr => absurd hr List.not_mem_nil, DB.inv_fresh ho, DB.settled_fresh o, DB.refines_fresh o⟩

end

/-- A buffer holds no more than what was read. -/
theorem short_throughout {evs : List Step} {s : System} {n : Nat} (h : ∀ i, (s.request i).length ≤ n)
    (hn : n + (evs.map Step.received).sum + 29 < 2 ^ 32) :
    Ledger.Throughout System.next (fun s _ => s.Short) s evs := by
  induction evs generalizing s n with
  | nil => trivial
  | cons ev evs ih =>
    rw [List.map_cons, List.sum_cons] at hn
    have hset : ∀ i b, b.length ≤ n + ev.received → ∀ j, (setAt s.request i b j).length ≤ n + ev.received := by
      intro i b hb j
      by_cases hj : j = i
      · rw [hj, setAt_self]
        exact hb
      · rw [setAt_of_ne _ hj]
        exact (h j).trans (Nat.le_add_right _ _)
    have hsame : ∀ j, (s.request j).length ≤ n + ev.received := fun j => (h j).trans (Nat.le_add_right _ _)
    refine ⟨fun i => by have := h i; omega, ih (n := n + ev.received) (fun j => ?_) (by omega)⟩
    cases ev with
    | recv i chunk =>
      rw [System.next]
      split
      · refine hset i _ ?_ j
        rw [List.length_append]
        exact Nat.add_le_add_right (h i) _
      · exact hsame j
    | line i =>
      rw [System.next]
      cases linePos (s.request i) with
      | none => exact hsame j
      | some pos => exact hset i _ (((List.drop_suffix _ _).length_le).trans (hsame i)) j
    | close i =>
      rw [System.next]
      split
      · exact hset i [] (Nat.zero_le _) j
      · exact hsame j
    | flush | compactLevel _ => exact hsame j

/-- Two clients, with a flush between their requests. -/
def twoClients : List Step :=
  [.recv 0 (text "PUT a 1\r\n"), .recv 1 (text "GET a\nPI"), .line 0, .flush, .line 1, .recv 1 (text "NG\n"), .line 1]

theorem short_twoClients : Ledger.Throughout System.next (fun s _ => s.Short) (started { memtableSizeLimit := 1 }) twoClients :=
  short_throughout (n := 0) (fun _ => Nat.le_refl _) (by decide +kernel)

/-- The parts in front of the first carriage returns, and those behind the line ends. -/
theorem front_of_line {a b x y : Bytes} (ha : carriageReturn ∉ a) (hb : carriageReturn ∉ b)
    (h : a ++ (text "\r\n" ++ x) = b ++ (text "\r\n" ++ y)) : a = b ∧ x = y := by
  have hcr : ∀ z, text "\r\n" ++ z = carriageReturn :: newline :: z := fun z => by
    rw [show text "\r\n" = [carriageReturn, newline] by decide +kernel]
    rfl
  have hne : ∀ {s : Bytes}, carriageReturn ∉ s → ∀ c ∈ s, (decide (c ≠ carriageReturn)) = true :=
    fun hs c hc => decide_eq_true fun he => hs (he ▸ hc)
  rw [hcr, hcr] at h
  have htake := congrArg (List.takeWhile fun c => decide (c ≠ carriageReturn)) h
  rw [takeWhile_append_cons (hne ha) (by simp), takeWhile_append_cons (hne hb) (by simp)] at htake
  subst htake
  have hrest := List.append_cancel_left h
  exact ⟨rfl, by simpa using hrest⟩

theorem not_mem_toDecimal (n : Nat) : carriageReturn ∉ toDecimal n := by
  intro h
  have hd := (toDecimal_spec n).2.1 _ h
  revert hd
  decide

/-- Lines of text do not continue each other. -/
theorem prefixFree_lines (c : Bytes) : PrefixCode.PrefixFree {r | ∃ s, carriageReturn ∉ s ∧ r = c ++ s ++ text "\r\n"} := by
  rintro a ⟨s, hs, rfl⟩ b ⟨t, ht, rfl⟩ x y h
  simp only [List.append_assoc] at h
  rw [(front_of_line hs ht (List.append_cancel_left h)).1]

/-- The length in front of a value says where it ends. -/
theorem prefixFree_bulk : PrefixCode.PrefixFree {r | ∃ value, r = bulk value} := by
  rintro a ⟨value, rfl⟩ b ⟨value', rfl⟩ x y h
  simp only [bulk, List.append_assoc] at h
  obtain ⟨hlen, hrest⟩ := front_of_line (not_mem_toDecimal _) (not_mem_toDecimal _) (List.append_cancel_left h)
  have hnum := congrArg digitsValue hlen
  rw [(toDecimal_spec _).1, (toDecimal_spec _).1] at hnum
  rw [(List.append_inj hrest hnum).1]

/-- The null response is no value: a length has no sign. -/
theorem prefixFree_null : PrefixCode.PrefixFree ({text "$-1\r\n"} ∪ {r | ∃ value, r = bulk value}) := by
  have hcross : ∀ value x y, text "$-1\r\n" ++ x ≠ bulk value ++ y := by
    intro value x y h
    have hnull : text "$-1\r\n" = text "$" ++ (text "-1" ++ text "\r\n") := by decide +kernel
    rw [hnull] at h
    simp only [bulk, List.append_assoc] at h
    have hfront : carriageReturn ∉ text "-1" := by decide +kernel
    have hlen := (front_of_line hfront (not_mem_toDecimal _) (List.append_cancel_left h)).1
    have hsign : ∃ b ∈ text "-1", isDigit b ≠ true := by decide +kernel
    obtain ⟨b, hb, hd⟩ := hsign
    exact hd ((toDecimal_spec _).2.1 b (hlen ▸ hb))
  rintro a (rfl | ⟨value, rfl⟩) b (rfl | ⟨value', rfl⟩) x y h
  · rfl
  · exact absurd h (hcross value' x y)
  · exact absurd h.symm (hcross value y x)
  · exact prefixFree_bulk _ ⟨value, rfl⟩ _ ⟨value', rfl⟩ x y h

theorem text_sign : text "+" = [byte 43] ∧ text "-" = [byte 45] ∧ text "$" = [byte 36] ∧
    text "$-1\r\n" = byte 36 :: text "-1\r\n" := by
  decide +kernel

/-- **Responses** can be told apart: the first byte says of which form they are. -/
theorem uniquelyDecodable_responses : InformationTheory.UniquelyDecodable {r | IsResponse r} := by
  obtain ⟨hplus, hminus, hdollar, hnull⟩ := text_sign
  have hall : {r | IsResponse r} = ({r | ∃ s, carriageReturn ∉ s ∧ r = text "+" ++ s ++ text "\r\n"} ∪
      {r | ∃ s, carriageReturn ∉ s ∧ r = text "-" ++ s ++ text "\r\n"}) ∪
        ({text "$-1\r\n"} ∪ {r | ∃ value, r = bulk value}) := by
    ext r
    constructor
    · rintro (⟨s, hs⟩ | ⟨s, hs⟩ | _ | ⟨value⟩)
      · exact Or.inl (Or.inl ⟨s, hs, rfl⟩)
      · exact Or.inl (Or.inr ⟨s, hs, rfl⟩)
      · exact Or.inr (Or.inl rfl)
      · exact Or.inr (Or.inr ⟨value, rfl⟩)
    · rintro ((⟨s, hs, rfl⟩ | ⟨s, hs, rfl⟩) | rfl | ⟨value, rfl⟩)
      · exact .simple s hs
      · exact .error s hs
      · exact .null
      · exact .bulk value
  have hvalue : ∀ b ∈ ({text "$-1\r\n"} ∪ {r | ∃ value, r = bulk value} : Set Bytes), ∃ t, b = byte 36 :: t := by
    rintro b (rfl | ⟨value, rfl⟩)
    · exact ⟨_, hnull⟩
    · exact ⟨toDecimal value.length ++ text "\r\n" ++ value ++ text "\r\n", by simp [bulk, hdollar]⟩
  refine PrefixCode.PrefixFree.uniquelyDecodable (hall ▸ ?_) ?_
  · refine .union (.union (prefixFree_lines _) (prefixFree_lines _) ?_) prefixFree_null ?_
    · rintro a ⟨s, -, rfl⟩ b ⟨t, -, rfl⟩
      exact ⟨byte 43, s ++ text "\r\n", byte 45, t ++ text "\r\n", by simp [hplus], by simp [hminus], by decide⟩
    · rintro a (⟨s, -, rfl⟩ | ⟨s, -, rfl⟩) b hb
      · obtain ⟨t, rfl⟩ := hvalue b hb
        exact ⟨byte 43, s ++ text "\r\n", byte 36, t, by simp [hplus], rfl, by decide⟩
      · obtain ⟨t, rfl⟩ := hvalue b hb
        exact ⟨byte 45, s ++ text "\r\n", byte 36, t, by simp [hminus], rfl, by decide⟩
  · intro h
    rw [hall] at h
    rcases h with (⟨s, -, hs⟩ | ⟨s, -, hs⟩) | h
    · simp [hplus] at hs
    · simp [hminus] at hs
    · obtain ⟨t, ht⟩ := hvalue _ h
      cases ht

/-- **Every client can tell its responses apart**: no other responses make up the bytes it was sent. -/
theorem responses_decodable {o : Options} (ho : 1 ≤ o.maxSstableLevels) {evs : List Step}
    (hs : Ledger.Throughout System.next (fun s _ => s.Short) (started o) evs) (i : Nat) {rs : List Bytes}
    (hrs : ∀ r ∈ rs, IsResponse r)
    (h : rs.flatten = ((Ledger.after System.next (started o) evs).responses i).flatten) :
    rs = (Ledger.after System.next (started o) evs).responses i := by
  obtain ⟨m, hm⟩ := (served_started ho).run hs
  refine uniquelyDecodable_responses rs _ hrs (fun r hr => ?_) h
  obtain ⟨x, hx, rfl⟩ := List.mem_map.mp hr
  exact hm.responses x (List.mem_of_mem_filter hx)

/-- What the second client was sent can be read in one way only. -/
theorem responses_decodable_sample : text "$1\r\n1\r\n+PONG\r\n" =
      ((Ledger.after System.next (started { memtableSizeLimit := 1 }) twoClients).responses 1).flatten ∧
    [text "$1\r\n1\r\n", text "+PONG\r\n"] =
      (Ledger.after System.next (started { memtableSizeLimit := 1 }) twoClients).responses 1 := by
  have hbulk : text "$1\r\n1\r\n" = bulk [49] := by decide +kernel
  have hpong : text "+PONG\r\n" = text "+" ++ text "PONG" ++ text "\r\n" := by decide +kernel
  have hsent : text "$1\r\n1\r\n+PONG\r\n" =
      ((Ledger.after System.next (started { memtableSizeLimit := 1 }) twoClients).responses 1).flatten := by
    decide +kernel
  have hflat : [text "$1\r\n1\r\n", text "+PONG\r\n"].flatten = text "$1\r\n1\r\n+PONG\r\n" := by decide +kernel
  refine ⟨hsent, responses_decodable (o := { memtableSizeLimit := 1 }) (by decide) short_twoClients 1 (fun r hr => ?_)
    (hflat.trans hsent)⟩
  rcases List.mem_cons.mp hr with rfl | hr
  · exact hbulk ▸ .bulk [49]
  · rw [List.mem_singleton.mp hr, hpong]
    exact .simple _ (by decide +kernel)

end Server

end SplitKV

import Wavicle.Replication.Mapping
import Wavicle.Lib.Decimal

/-! # The MySQL poller

`replication/mysql.go`: every tick, the rows above a watermark are fetched and sent as events. The watermark is
raised to the id of a row whether or not its event found room in the channel, and a row that cannot be scanned
is passed over. -/

namespace Wavicle.Replication

open Lib Wavicle.Core Storage List

/-- What is read with `fmt.Sscan`. -/
class Scanning where
  /-- `fmt.Sscan(s, &iv)`: the number in `iv`, which is zero before -/
  sscanInt64 : Str → ℤ

/-- A numeral is read, unless the number is too large: that is an error, and it stays zero. -/
class Scanning.ReadsNumerals [Scanning] : Prop where
  sscanInt64_decimal : ∀ n : ℕ, sscanInt64 (decimal n) = if n < 2 ^ 63 then (n : ℤ) else 0

/-! ### Tables -/

/-- A row with a positive id, which is its column `id`. -/
structure TableRow where
  id : ℕ
  columns : Row
  id_pos : 0 < id
  column_id : ∃ cell, columns.lookup (str "id") = some cell ∧ cell.sprint = decimal id

/-- What MySQL may answer to ``SELECT * FROM `table` WHERE id > ? ORDER BY id ASC LIMIT 1000``: rows with the same
id come in any order, and any of them may be beyond the limit. -/
def Answers (contents : List TableRow) (watermark : ℤ) (rows : List TableRow) : Prop :=
  ∃ sorted : List TableRow, sorted.Perm (contents.filter fun row => watermark < row.id) ∧
    (sorted.Pairwise fun row row' => row.id ≤ row'.id) ∧ rows = sorted.take 1000

theorem Answers.lt {contents rows : List TableRow} {watermark : ℤ} {row : TableRow}
    (h : Answers contents watermark rows) (hrow : row ∈ rows) : watermark < row.id := by
  obtain ⟨sorted, hperm, -, rfl⟩ := h
  have hmem := hperm.mem_iff.1 (mem_of_mem_take hrow)
  exact of_decide_eq_true (mem_filter.1 hmem).2

def isValidMySQLIdentifier (s : Str) : Bool :=
  let first (b : UInt8) : Bool := b = 95 || b = 36 || isASCIILetter b
  s.length ≠ 0 && s.length ≤ 64 && s.head?.all first && s.all fun b => first b || isASCIIDigit b

/-! ### A poll -/

/-- What the loop meets at a row. -/
structure Turn where
  /-- `rows.Scan` succeeds -/
  scans : Bool
  /-- how many events the applier has taken from the channel since the turn before -/
  received : ℕ
  cancelled : Bool
  /-- and `select` prefers that to a send that is possible as well -/
  picksDone : Bool
  now : Time

/-- `MySQLListener`, while `run` is running. -/
structure Poller where
  /-- the map `wm`; a table that is not in it has the watermark zero -/
  wm : Str → ℤ
  events : List ChangeEvent
  placed : List ChangeEvent
  lastOK : Time

/-- What becomes of a row of the result. -/
inductive Fate where
  | unscanned
  | cancelled
  | placed
  | dropped
  deriving DecidableEq

/-- A row that the loop has seen. -/
structure Visit where
  row : TableRow
  turn : Turn
  fate : Fate

def eventsCapacity : ℕ := 10000

/-- `mapRow` of the `MySQLListener` -/
def mapPolledRow (mappers : List PathMapper) (table : Str) (values : Row) : List Str :=
  match mappers.find? fun m => m.table = table with
  | some m => m.mapRowToPaths values
  | none => autoPathMapping table values

section

variable [Scanning] (mappers : List PathMapper) (table : Str)

def rowEvent (row : TableRow) (turn : Turn) : ChangeEvent :=
  ⟨.update, row.columns, mapPolledRow mappers table row.columns, turn.now⟩

/-- The `select`: the event is placed, the context is done, or the default branch is taken. -/
def Poller.send (s : Poller) (event : ChangeEvent) (turn : Turn) : Fate × Poller :=
  let events := s.events.drop turn.received
  if turn.cancelled ∧ (eventsCapacity ≤ events.length ∨ turn.picksDone) then
    (.cancelled, { s with events := events })
  else if events.length < eventsCapacity then
    (.placed, { s with events := events ++ [event], placed := s.placed ++ [event] })
  else (.dropped, { s with events := events })

def Poller.raise (s : Poller) (row : TableRow) : Poller :=
  match row.columns.lookup (str "id") with
  | none => s
  | some id =>
    let iv := Scanning.sscanInt64 id.sprint
    if iv > s.wm table then { s with wm := Function.update s.wm table iv } else s

def Poller.visit (s : Poller) (row : TableRow) (turn : Turn) : Fate × Poller :=
  if turn.scans then
    let (fate, s) := s.send (rowEvent mappers table row turn) turn
    (fate, if fate = .cancelled then s else s.raise table row)
  else (.unscanned, s)

/-- The loop over the rows: those that it has seen, and the poller afterwards. -/
def Poller.pollRows : List (TableRow × Turn) → Poller → List Visit × Poller
  | [], s => ([], s)
  | (row, turn) :: rest, s =>
    let (fate, s) := s.visit mappers table row turn
    if fate = .cancelled then ([⟨row, turn, fate⟩], s)
    else
      let (seen, s) := pollRows rest s
      (⟨row, turn, fate⟩ :: seen, s)

/-- What a poll meets: the table, and the database that answers for it. -/
structure Poll where
  contents : List TableRow
  /-- the rows that MySQL answers for a watermark -/
  select : ℤ → List TableRow
  answers : ∀ watermark, Answers contents watermark (select watermark)
  fails : Bool
  /-- a turn for each row of the result; the iteration fails when there are no more -/
  turns : List Turn

/-- `pollTable`: the rows that it has seen, its result, and the poller afterwards. -/
def Poller.pollTable (s : Poller) (poll : Poll) : List Visit × Bool × Poller :=
  if !isValidMySQLIdentifier table || poll.fails then ([], false, s)
  else
    let rows := poll.select (s.wm table)
    let (seen, s) := s.pollRows mappers table (rows.zip poll.turns)
    (seen, seen.all (fun v => v.fate ≠ .cancelled) && rows.length ≤ poll.turns.length, s)

/-- The body of the loop of `run` over the tables, and whether all polls so far were clean. -/
def Poller.pollTables (s : Poller) (ok : Bool) : List (Str × Poll) → Bool × Poller
  | [] => (ok, s)
  | (table, poll) :: rest =>
    let (_, clean, s) := s.pollTable mappers table poll
    s.pollTables (ok && clean) rest

/-- A tick at the time `now`: the polls of the tables, one after another. -/
structure Tick where
  polls : List (Str × Poll)
  now : Time

/-- What `run` does on a tick. -/
def Poller.tick (s : Poller) (t : Tick) : Poller :=
  let (ok, s) := s.pollTables mappers true t.polls
  if ok then { s with lastOK := t.now } else s

/-- The poller when `run` starts. -/
def Poller.init : Poller := ⟨fun _ => 0, [], [], 0⟩

end

/-! ### What a visit does -/

section

variable [Scanning] {mappers : List PathMapper} {table : Str}

/-- The number by which the watermark is raised: none if the id is too large for an `int64`. -/
def TableRow.scanned (row : TableRow) : ℤ := if row.id < 2 ^ 63 then row.id else 0

def Fate.passed : Fate → Bool
  | .placed | .dropped => true
  | .unscanned | .cancelled => false

variable (s : Poller) (event : ChangeEvent)

theorem channel_raise (row : TableRow) :
    (s.raise table row).placed = s.placed ∧ (s.raise table row).events = s.events := by
  unfold Poller.raise
  split
  · exact ⟨rfl, rfl⟩
  · dsimp only
    split_ifs <;> exact ⟨rfl, rfl⟩

theorem wm_raise [Scanning.ReadsNumerals] (s : Poller) (row : TableRow) :
    (s.raise table row).wm table = max (s.wm table) row.scanned := by
  obtain ⟨cell, hcell, hsprint⟩ := row.column_id
  have hread : Scanning.sscanInt64 cell.sprint = row.scanned := by
    rw [hsprint, Scanning.ReadsNumerals.sscanInt64_decimal]
    rfl
  simp only [Poller.raise, hcell, hread]
  split_ifs with h
  · exact (Function.update_self ..).trans (max_eq_right h.le).symm
  · rw [max_eq_left (not_lt.1 h)]

section

omit [Scanning]

theorem wm_send (turn : Turn) : (s.send event turn).2.wm = s.wm := by
  unfold Poller.send
  dsimp only
  split_ifs <;> rfl

theorem placed_send (turn : Turn) : (s.send event turn).2.placed =
      s.placed ++ if (s.send event turn).1 = .placed then [event] else [] := by
  unfold Poller.send
  dsimp only
  split_ifs <;> simp_all

theorem passed_send (turn : Turn) :
    (s.send event turn).1.passed = true ↔ (s.send event turn).1 ≠ .cancelled := by
  unfold Poller.send
  dsimp only
  split_ifs <;> simp [Fate.passed]

end

def placedEvents (mappers : List PathMapper) (table : Str) (seen : List Visit) : List ChangeEvent :=
  (seen.filter fun v => v.fate = .placed).map fun v => rowEvent mappers table v.row v.turn

theorem placed_visit (row : TableRow) (turn : Turn) :
    (s.visit mappers table row turn).2.placed = s.placed ++
      placedEvents mappers table [⟨row, turn, (s.visit mappers table row turn).1⟩] := by
  unfold Poller.visit placedEvents
  split_ifs with hscans
  · have hplaced := placed_send s (rowEvent mappers table row turn) turn
    dsimp only
    split_ifs with hcancelled
    · simpa [filter_cons, apply_ite] using hplaced
    · rw [(channel_raise _ _).1]
      simpa [filter_cons, apply_ite] using hplaced
  · simp

theorem wm_visit [Scanning.ReadsNumerals] (s : Poller) (row : TableRow) (turn : Turn) :
    (s.visit mappers table row turn).2.wm table =
      if (s.visit mappers table row turn).1.passed then max (s.wm table) row.scanned else s.wm table := by
  unfold Poller.visit
  split_ifs with hscans hpassed hpassed
  · have hne := (passed_send _ _ _).1 hpassed
    dsimp only
    rw [if_neg hne, wm_raise, wm_send]
  · have hcancelled := not_imp_comm.1 (passed_send _ _ _).2 hpassed
    dsimp only
    rw [if_pos hcancelled, wm_send]
  · cases hpassed
  · rfl

/-! ### What a poll does -/

theorem placed_pollRows : ∀ (rows : List (TableRow × Turn)) (s : Poller),
    (s.pollRows mappers table rows).2.placed =
      s.placed ++ placedEvents mappers table (s.pollRows mappers table rows).1
  | [], s => (append_nil _).symm
  | (row, turn) :: rest, s => by
    have hvisit := @placed_visit _ mappers table s row turn
    unfold Poller.pollRows
    dsimp only
    split_ifs with hcancelled
    · exact hvisit
    · rw [placed_pollRows rest, hvisit, append_assoc]
      simp only [placedEvents, ← map_append, ← filter_append, singleton_append]

theorem le_wm_pollRows [Scanning.ReadsNumerals] (n : ℤ) : ∀ (rows : List (TableRow × Turn))
    (s : Poller), n ≤ (s.pollRows mappers table rows).2.wm table ↔
      n ≤ s.wm table ∨ ∃ v ∈ (s.pollRows mappers table rows).1,
        v.fate.passed = true ∧ n ≤ v.row.scanned
  | [], s => by simp [Poller.pollRows]
  | (row, turn) :: rest, s => by
    have hvisit := @wm_visit _ mappers table _ s row turn
    have hstep : n ≤ (s.visit mappers table row turn).2.wm table ↔ n ≤ s.wm table ∨
        (s.visit mappers table row turn).1.passed = true ∧ n ≤ row.scanned := by
      rw [hvisit]
      split_ifs with hpassed <;> simp [hpassed]
    unfold Poller.pollRows
    dsimp only
    split_ifs with hcancelled
    · rw [hstep]
      simp
    · rw [le_wm_pollRows n rest, hstep, or_assoc]
      simp

theorem rows_of_mem_pollRows : ∀ {rows : List (TableRow × Turn)} {s : Poller} {v : Visit},
    v ∈ (s.pollRows mappers table rows).1 → (v.row, v.turn) ∈ rows
  | [], _, _, h => absurd h not_mem_nil
  | (row, turn) :: rest, s, v, h => by
    unfold Poller.pollRows at h
    dsimp only at h
    split_ifs at h with hcancelled
    · obtain rfl := mem_singleton.1 h
      exact mem_cons_self
    · rcases mem_cons.1 h with rfl | h
      · exact mem_cons_self
      · exact mem_cons_of_mem _ (rows_of_mem_pollRows h)

/-! ### Rows that are skipped -/

/-- The poll skips no row: a row that it has seen and that lies under the watermark afterwards has its
event on the channel. -/
def SkipsNone (mappers : List PathMapper) (table : Str) (s : Poller) (poll : Poll) : Prop :=
  ∀ v ∈ (s.pollTable mappers table poll).1,
    (v.row.id : ℤ) ≤ (s.pollTable mappers table poll).2.2.wm table → v.fate = .placed

/-- **What must not happen in a poll**: an event finds no room in the channel; and after a row that was
not scanned, or at which the context was done, or before it with the same id, a row is passed. (A row
whose id does not fit into an `int64` does not raise the watermark, and does no harm.) -/
def Unhindered (seen : List Visit) : Prop :=
  (∀ v ∈ seen, v.fate = .dropped → 2 ^ 63 ≤ v.row.id) ∧
    ∀ v ∈ seen, v.fate.passed = false → ∀ u ∈ seen, u.fate.passed = true → u.row.id < 2 ^ 63 →
      u.row.id < v.row.id

omit [Scanning] in
theorem scanned_of_lt {row : TableRow} (h : row.id < 2 ^ 63) : row.scanned = row.id := if_pos h

omit [Scanning] in
theorem lt_of_le_scanned {row row' : TableRow} (h : (row.id : ℤ) ≤ row'.scanned) :
    row'.id < 2 ^ 63 ∧ row.id ≤ row'.id := by
  have hpos := row.id_pos
  unfold TableRow.scanned at h
  split_ifs at h with hlt <;> omega

theorem le_wm_pollTable [Scanning.ReadsNumerals] {s : Poller} {poll : Poll} {v : Visit}
    (hv : v ∈ (s.pollTable mappers table poll).1) :
    (v.row.id : ℤ) ≤ (s.pollTable mappers table poll).2.2.wm table ↔
      ∃ u ∈ (s.pollTable mappers table poll).1, u.fate.passed = true ∧
        u.row.id < 2 ^ 63 ∧ v.row.id ≤ u.row.id := by
  unfold Poller.pollTable at hv ⊢
  split_ifs at hv ⊢ with hfails
  · cases hv
  · dsimp only at hv ⊢
    have habove : s.wm table < v.row.id :=
      (poll.answers _).lt (of_mem_zip (rows_of_mem_pollRows hv)).1
    rw [le_wm_pollRows, or_iff_right (not_le.2 habove)]
    refine exists_congr fun u => and_congr_right fun _ => and_congr_right fun _ =>
      ⟨lt_of_le_scanned, fun h => ?_⟩
    rw [scanned_of_lt h.1]
    exact_mod_cast h.2

theorem skipsNone_poll_iff [Scanning.ReadsNumerals] (s : Poller) (poll : Poll) :
    SkipsNone mappers table s poll ↔ Unhindered (s.pollTable mappers table poll).1 := by
  constructor
  · intro h
    refine ⟨fun v hv hdropped => ?_, fun v hv hfate u hu hpassed hlt => ?_⟩
    · by_contra hlt
      have hplaced := h v hv ((le_wm_pollTable hv).2
        ⟨v, hv, by rw [hdropped]; rfl, not_le.1 hlt, le_rfl⟩)
      exact absurd (hdropped.symm.trans hplaced) (by decide)
    · by_contra hle
      have hplaced := h v hv ((le_wm_pollTable hv).2 ⟨u, hu, hpassed, hlt, not_lt.1 hle⟩)
      rw [hplaced] at hfate
      cases hfate
  · rintro ⟨hroom, hgap⟩ v hv hle
    obtain ⟨u, hu, hpassed, hlt, huv⟩ := (le_wm_pollTable hv).1 hle
    cases hfate : v.fate with
    | placed => rfl
    | dropped => exact absurd (hroom v hv hfate) (by omega)
    | unscanned => exact absurd (hgap v hv (by rw [hfate]; rfl) u hu hpassed hlt) (by omega)
    | cancelled => exact absurd (hgap v hv (by rw [hfate]; rfl) u hu hpassed hlt) (by omega)

theorem placed_pollTable (poll : Poll) : (s.pollTable mappers table poll).2.2.placed =
      s.placed ++ placedEvents mappers table (s.pollTable mappers table poll).1 := by
  unfold Poller.pollTable
  split_ifs with hfails
  · exact (append_nil _).symm
  · exact placed_pollRows _ _

/-! ### Runs -/

/-- A poll of a run: the poller before it, the table and the poll. -/
structure Polled where
  poller : Poller
  table : Str
  poll : Poll

variable (mappers)

def polledTables : Poller → List (Str × Poll) → List Polled
  | _, [] => []
  | s, (table, poll) :: rest =>
    ⟨s, table, poll⟩ :: polledTables (s.pollTable mappers table poll).2.2 rest

def polled : Poller → List Tick → List Polled
  | _, [] => []
  | s, t :: ts => polledTables mappers s t.polls ++ polled (s.tick mappers t) ts

theorem polled_append (t : Tick) : ∀ (ts : List Tick) (s : Poller),
    polled mappers s (ts ++ [t]) =
      polled mappers s ts ++ polledTables mappers (ts.foldl (·.tick mappers) s) t.polls
  | [], s => append_nil _
  | t' :: ts, s => by
    rw [cons_append, polled, polled_append t ts, polled, append_assoc, foldl_cons]

/-- **In every run, a poll skips no row exactly if it is unhindered.** The rows that it has placed are
those whose events are new on the channel. -/
theorem polled_skipsNone_iff [Scanning.ReadsNumerals] (ticks : List Tick) :
    ∀ x ∈ polled mappers Poller.init ticks,
      (x.poller.pollTable mappers x.table x.poll).2.2.placed = x.poller.placed ++
          placedEvents mappers x.table (x.poller.pollTable mappers x.table x.poll).1 ∧
        (SkipsNone mappers x.table x.poller x.poll ↔
          Unhindered (x.poller.pollTable mappers x.table x.poll).1) :=
  fun x _ => ⟨placed_pollTable x.poller x.poll, skipsNone_poll_iff x.poller x.poll⟩

end

section Instances

local instance polledScanning : Scanning :=
  ⟨fun s => ((digits s).map fun n => if n < 2 ^ 63 then (n : ℤ) else 0).getD 0⟩

local instance polledReadsNumerals : Scanning.ReadsNumerals :=
  ⟨fun n => by simp [Scanning.sscanInt64, digits_decimal]⟩

def bareRow (n : ℕ) : TableRow :=
  ⟨n + 1, (∅ : Row).insert (str "id") (.text (decimal (n + 1))), n.succ_pos,
    .text (decimal (n + 1)), AList.lookup_insert _, rfl⟩

def quietTurn : Turn := ⟨true, 0, false, false, 0⟩

theorem answers_singleton (row : TableRow) (watermark : ℤ) :
    Answers [row] watermark ([row].filter fun r => watermark < r.id) := by
  have hlen : ([row].filter fun r => decide (watermark < r.id)).length ≤ 1 := length_filter_le _ _
  exact ⟨_, .refl _, (pairwise_singleton _ row).sublist filter_sublist, (take_of_length_le (by omega)).symm⟩

def oneMore (n : ℕ) : Poll where
  contents := [bareRow n]
  select watermark := [bareRow n].filter fun row => watermark < row.id
  answers := answers_singleton (bareRow n)
  fails := false
  turns := [quietTurn]

/-- The poller, when `n` rows have come in and the applier is stuck. -/
structure Backlog (s : Poller) (n : ℕ) : Prop where
  wm : s.wm (str "t") = n
  events : s.events.length = min n eventsCapacity

theorem select_oneMore (n : ℕ) : (oneMore n).select n = [bareRow n] :=
  filter_eq_self.2 fun row hrow => by
    obtain rfl := mem_singleton.1 hrow
    exact decide_eq_true (by simp [bareRow])

theorem send_quietTurn (s : Poller) (event : ChangeEvent) : s.send event quietTurn =
    if s.events.length < eventsCapacity then
      (.placed, { s with events := s.events ++ [event], placed := s.placed ++ [event] })
    else (.dropped, s) := by
  simp [Poller.send, quietTurn]

theorem visit_quietTurn (s : Poller) (row : TableRow) : s.visit [] (str "t") row quietTurn =
    if s.events.length < eventsCapacity then
      (.placed, Poller.raise (str "t") { s with
        events := s.events ++ [rowEvent [] (str "t") row quietTurn]
        placed := s.placed ++ [rowEvent [] (str "t") row quietTurn] } row)
    else (.dropped, s.raise (str "t") row) := by
  rw [Poller.visit, if_pos (show quietTurn.scans = true from rfl), send_quietTurn]
  split_ifs <;> rfl

theorem Backlog.visit {s : Poller} {n : ℕ} (hs : Backlog s n) (hn : n + 1 < 2 ^ 63) :
    (s.visit [] (str "t") (bareRow n) quietTurn).1 = (if n < eventsCapacity then .placed else .dropped) ∧
      Backlog (s.visit [] (str "t") (bareRow n) quietTurn).2 (n + 1) := by
  have hscanned : (bareRow n).scanned = n + 1 := by
    rw [scanned_of_lt (show (bareRow n).id < 2 ^ 63 from hn)]
    rfl
  have hlength := hs.events
  rw [visit_quietTurn]
  split_ifs with hroom hn' hn'
  · refine ⟨rfl, ?_, ?_⟩
    · rw [wm_raise, hs.wm, hscanned]
      omega
    · rw [(channel_raise _ _).2, length_append, length_singleton]
      omega
  · omega
  · omega
  · refine ⟨rfl, ?_, ?_⟩
    · rw [wm_raise, hs.wm, hscanned]
      omega
    · rw [(channel_raise _ _).2]
      omega

theorem Backlog.pollTable {s : Poller} {n : ℕ} (hs : Backlog s n) (hn : n + 1 < 2 ^ 63) :
    (s.pollTable [] (str "t") (oneMore n)).1 =
        [⟨bareRow n, quietTurn, if n < eventsCapacity then .placed else .dropped⟩] ∧
      Backlog (s.pollTable [] (str "t") (oneMore n)).2.2 (n + 1) := by
  obtain ⟨hfate, hnext⟩ := hs.visit hn
  have hvalid : (!isValidMySQLIdentifier (str "t") || false) = false := by decide +kernel
  have hne : (s.visit [] (str "t") (bareRow n) quietTurn).1 ≠ .cancelled := by
    rw [hfate]
    split_ifs <;> decide
  have hrows : (oneMore n).select (s.wm (str "t")) = [bareRow n] := by rw [hs.wm, select_oneMore]
  have hloop : s.pollRows [] (str "t") [(bareRow n, quietTurn)] =
      ([⟨bareRow n, quietTurn, (s.visit [] (str "t") (bareRow n) quietTurn).1⟩],
        (s.visit [] (str "t") (bareRow n) quietTurn).2) := by
    simp only [Poller.pollRows, if_neg hne]
  have hpoll : (oneMore n).fails = false ∧ (oneMore n).turns = [quietTurn] := ⟨rfl, rfl⟩
  rw [← hfate, Poller.pollTable, hpoll.1, hvalid, if_neg Bool.false_ne_true, hrows, hpoll.2]
  dsimp only [zip_cons_cons]
  rw [zip_nil_left, hloop]
  exact ⟨rfl, hnext⟩

theorem Backlog.tick {s : Poller} {n : ℕ} (hs : Backlog s n) (hn : n + 1 < 2 ^ 63) :
    Backlog (s.tick [] ⟨[(str "t", oneMore n)], 0⟩) (n + 1) := by
  have hnext := (hs.pollTable hn).2
  unfold Poller.tick Poller.pollTables Poller.pollTables
  dsimp only
  split_ifs
  · exact ⟨hnext.wm, hnext.events⟩
  · exact hnext

def growing (n : ℕ) : List Tick := (List.range n).map fun k => ⟨[(str "t", oneMore k)], 0⟩

theorem backlog_growing : ∀ {n : ℕ}, n < 2 ^ 63 →
    Backlog ((growing n).foldl (·.tick []) Poller.init) n
  | 0, _ => ⟨rfl, rfl⟩
  | n + 1, hn => by
    have hs := (backlog_growing (Nat.lt_of_succ_lt hn)).tick hn
    rw [growing, range_succ, map_append, foldl_append]
    exact hs

/-- Ten thousand rows fill the channel while the applier is stuck. The next row is dropped, and the
watermark passes it. -/
theorem full_channel_skips_row : ∃ x ∈ polled [] Poller.init (growing 10001),
    ∃ v ∈ (x.poller.pollTable [] x.table x.poll).1, v.fate = .dropped ∧
      (v.row.id : ℤ) ≤ (x.poller.pollTable [] x.table x.poll).2.2.wm x.table := by
  obtain ⟨hseen, hnext⟩ := (@backlog_growing 10000 (by decide)).pollTable (by decide)
  refine ⟨⟨(growing 10000).foldl (·.tick []) Poller.init, str "t", oneMore 10000⟩, ?_, ?_⟩
  · rw [growing, range_succ, map_append, map_singleton, polled_append]
    exact mem_append_right _ (mem_singleton.2 rfl)
  · rw [hseen, hnext.wm]
    exact ⟨_, mem_singleton.2 rfl, rfl, le_rfl⟩

theorem polled_skipsNone_iff_growing : (polled [] Poller.init (growing 2)).length = 2 ∧
    ∀ x ∈ polled [] Poller.init (growing 2),
      (x.poller.pollTable [] x.table x.poll).2.2.placed = x.poller.placed ++
          placedEvents [] x.table (x.poller.pollTable [] x.table x.poll).1 ∧
        (SkipsNone [] x.table x.poller x.poll ↔ Unhindered (x.poller.pollTable [] x.table x.poll).1) :=
  ⟨rfl, polled_skipsNone_iff [] (growing 2)⟩

end Instances

end Wavicle.Replication

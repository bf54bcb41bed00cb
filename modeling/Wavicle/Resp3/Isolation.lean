import Wavicle.Resp3.Connection
import Wavicle.Resp3.ServerState

/-! # Transactions of concurrent connections

`EXEC` is a loop of ordinary calls of `HandleCommand`, and nothing keeps the other connections from calling it
in between.

* `Session.step`, `Sessions.step`: a turn of a connection, with at most one call of `HandleCommand`. The calls are
  recorded, with the connection and the command that they are made for.
* `Contiguous`: no other connection makes a call between two calls of one `EXEC`.
* `Sessions.Isolated`: the replies of a transaction are those of its queue run alone.
* `callLabels`: the calls that the commands of a client make. They depend on nothing but the commands.
* `contiguous_iff`: all schedules keep transactions contiguous exactly if no connection has an `EXEC` of two
  commands while another one has a command to run; and a transaction that is contiguous is isolated. -/

namespace Wavicle.Resp3

open Lib Auth Wavicle.Core Storage

section Sessions

variable [Unicode] {σ : Type}

/-! ### Turns -/

/-- An `EXEC` that is being run: `first` is the server that its first call found. -/
structure Exec (σ : Type) where
  conn : Conn
  rest : List (List Str)
  out : Str
  first : Option σ

/-- A connection with the commands that its client has yet to send. -/
structure Session (σ : Type) where
  conn : Conn
  commands : List (List Str)
  written : Str
  exec : Option (Exec σ)
  finished : List (Exec σ)

def Session.start (srv : Config) (commands : List (List Str)) : Session σ :=
  ⟨.init srv, commands, [], none, []⟩

/-- The command is an `EXEC` that runs a queue. -/
def runsQueue (c : Conn) (args : List Str) : Bool :=
  match args with
  | [] => false
  | name :: _ => toUpper name = str "EXEC" ∧ c.inMulti ∧ c.queue ≠ []

def Event.isInvoked : Event → Bool
  | .invoked _ => true
  | .authSucceeded => false

section

variable (srv : Config)

/-- A queued command is run, and not refused by the ACL. -/
def allows (c : Conn) (q : List Str) : Bool := (denial srv c (q.headD []) q).isNone

variable [Sha256] (handler : σ → List Str → Except Str Str × σ)

/-- One turn of the loop of `EXEC`. -/
def Exec.step (e : Exec σ) (s : σ) (q : List Str) (rest : List (List Str)) : Exec σ × σ :=
  match denial srv e.conn (q.headD []) q with
  | some err => ({ e with rest, out := e.out ++ errReply err }, s)
  | none =>
    let (r, s') := handler s q
    ({ e with rest, out := e.out ++ reply r, first := e.first.or (some s) }, s')

/-- A turn of a connection: the next queued command, the end of the transaction, or the next command of the
client. The last component says whether `HandleCommand` was called. -/
def Session.step (x : Session σ) (s : σ) : Session σ × σ × Bool :=
  match x.exec with
  | some e =>
    match e.rest with
    | q :: rest =>
      let (e', s') := e.step srv handler s q rest
      ({ x with exec := some e' }, s', allows srv e.conn q)
    | [] =>
      ({ x with
        conn := { e.conn with inMulti := false, queue := [] }
        written := x.written ++ str "*" ++ decimal e.conn.queue.length ++ str "\r\n" ++ e.out
        exec := none
        finished := x.finished ++ [e] }, s, false)
  | none =>
    match x.commands with
    | [] => (x, s, false)
    | args :: commands =>
      if runsQueue x.conn args then
        ({ x with commands, exec := some ⟨x.conn, x.conn.queue, [], none⟩ }, s, false)
      else
        let t := onCommand srv handler x.conn s args
        ({ x with conn := t.conn, commands, written := x.written ++ t.written }, t.server,
          t.events.any Event.isInvoked)

/-- All connections, and the calls so far: which connection made them, and how many commands of its client came
after the one that it made them for. -/
structure Sessions (σ : Type) where
  server : σ
  sessions : List (Session σ)
  calls : List (ℕ × ℕ)

def Sessions.start (srv : Config) (s : σ) (clients : List (List (List Str))) : Sessions σ :=
  ⟨s, clients.map (Session.start srv), []⟩

variable (x : Sessions σ)

/-- Connection `i` takes a turn. -/
def Sessions.step (i : ℕ) : Sessions σ :=
  match x.sessions[i]? with
  | none => x
  | some session =>
    let (session', s', called) := session.step srv handler x.server
    ⟨s', x.sessions.set i session', x.calls ++ if called then [(i, session'.commands.length)] else []⟩

def Sessions.run (schedule : List ℕ) : Sessions σ :=
  schedule.foldl (Sessions.step srv handler) x

def repliesAlone (c : Conn) (s : σ) (queue : List (List Str)) : Str :=
  (execQueue srv handler c s queue).2.1

/-- **`EXEC` is isolated**: a transaction that has been run has the replies of its queue alone, in the
state in which its first command was run. -/
def Sessions.Isolated : Prop :=
  ∀ session ∈ x.sessions, ∀ e ∈ session.finished, ∀ s ∈ e.first,
    e.out = repliesAlone srv handler e.conn s e.conn.queue

instance (x : Sessions σ) : Decidable (x.Isolated srv handler) :=
  inferInstanceAs (Decidable (∀ session ∈ x.sessions, ∀ e ∈ session.finished, ∀ s ∈ e.first,
    e.out = repliesAlone srv handler e.conn s e.conn.queue))

end

/-- **Transactions are contiguous**: between two calls for one command there is none of another connection. -/
def Contiguous (calls : List (ℕ × ℕ)) : Prop :=
  ∀ a ∈ calls, ∀ b ∈ calls, List.Sublist [a, b, a] calls → b.1 = a.1

instance (calls : List (ℕ × ℕ)) : Decidable (Contiguous calls) :=
  inferInstanceAs (Decidable (∀ a ∈ calls, ∀ b ∈ calls, List.Sublist [a, b, a] calls → b.1 = a.1))

omit [Unicode] in
theorem Contiguous.mono {calls calls' : List (ℕ × ℕ)} (h : Contiguous calls') (hsub : List.Sublist calls calls') :
    Contiguous calls :=
  fun a ha b hb hab => h a (hsub.subset ha) b (hsub.subset hb) (hab.trans hsub)

/-! ### The calls of a client -/

section

variable [Sha256] (srv : Config)

def silent (_ : Unit) (_ : List Str) : Except Str Str × Unit := (.ok [], ())

/-- The connection after a command; what `HandleCommand` answers makes no difference. -/
def Conn.after (c : Conn) (args : List Str) : Conn := (onCommand srv silent c () args).conn

/-- How many calls of `HandleCommand` a command makes. -/
def callCount (c : Conn) (args : List Str) : ℕ := (onCommand srv silent c () args).events.countP Event.isInvoked

/-- The calls that the commands make, in order. -/
def callLabels : Conn → List (List Str) → List ℕ
  | _, [] => []
  | c, args :: commands =>
    List.replicate (callCount srv c args) commands.length ++ callLabels (c.after srv args) commands

/-- The calls that a connection has yet to make. -/
def Session.pending (x : Session σ) : List ℕ :=
  match x.exec with
  | some e => List.replicate (e.rest.countP (allows srv e.conn)) x.commands.length ++
      callLabels srv { e.conn with inMulti := false, queue := [] } x.commands
  | none => callLabels srv x.conn x.commands

def Sessions.pending (x : Sessions σ) (i : ℕ) : List ℕ := (x.sessions[i]?).elim [] (Session.pending srv)

/-- The calls that the client of connection `i` makes. -/
def clientCalls (clients : List (List (List Str))) (i : ℕ) : List ℕ :=
  (clients[i]?).elim [] (callLabels srv (.init srv))

/-- **Nobody beside a transaction**: if a connection has an `EXEC` that makes two calls or more, no other
connection has a command that makes one. -/
def NobodyBeside (clients : List (List (List Str))) : Prop :=
  ∀ i j, i ≠ j → (∃ k, 2 ≤ (clientCalls srv clients i).count k) → clientCalls srv clients j = []

end

variable [Sha256] {srv : Config} {handler : σ → List Str → Except Str Str × σ} {c : Conn} {args : List Str}

omit [Sha256] in
theorem events_execQueue : ∀ (s : σ) (qs : List (List Str)),
    (execQueue srv handler c s qs).2.2 = (qs.filter (allows srv c)).map .invoked
  | _, [] => rfl
  | s, q :: qs => by
    unfold execQueue
    cases h : denial srv c (q.headD []) q with
    | some err =>
      rw [List.filter_cons_of_neg (by rw [allows, h]; exact Bool.false_ne_true)]
      exact events_execQueue s qs
    | none =>
      rw [List.filter_cons_of_pos (by rw [allows, h]; rfl), List.map_cons]
      exact congrArg _ (events_execQueue (handler s q).2 qs)

theorem onCommand_silent (srv : Config) (handler : σ → List Str → Except Str Str × σ) (s : σ) :
    (onCommand srv handler c s args).conn = c.after srv args ∧
    (onCommand srv handler c s args).events = (onCommand srv silent c () args).events := by
  cases args with
  | nil => exact ⟨rfl, rfl⟩
  | cons name rest =>
    unfold Conn.after onCommand
    dsimp only
    split_ifs
    all_goals try exact ⟨rfl, rfl⟩
    · exact ⟨rfl, (events_execQueue s c.queue).trans (events_execQueue () c.queue).symm⟩
    · cases denial srv c name (name :: rest) <;> exact ⟨rfl, rfl⟩
    · unfold onAuth
      cases credentials (name :: rest) with
      | none => exact ⟨rfl, rfl⟩
      | some login =>
        dsimp only
        split_ifs <;> exact ⟨rfl, rfl⟩
    · cases denial srv c (toUpper name) (name :: rest) <;> exact ⟨rfl, rfl⟩

theorem onCommand_of_runsQueue (srv : Config) (h : runsQueue c args = true) :
    callCount srv c args = c.queue.countP (allows srv c) ∧
      c.after srv args = { c with inMulti := false, queue := [] } := by
  cases args with
  | nil => cases h
  | cons name rest =>
    obtain ⟨hexec, hmulti, hqueue⟩ := of_decide_eq_true h
    have hnotMulti : ¬ str "EXEC" = str "MULTI" := by decide
    have hnotDiscard : ¬ str "EXEC" = str "DISCARD" := by decide
    unfold callCount Conn.after onCommand
    simp only [hexec, hmulti, hqueue, if_neg hnotMulti, if_neg hnotDiscard, if_true, if_false, Bool.not_true,
      Bool.false_eq_true, events_execQueue]
    refine ⟨?_, trivial⟩
    rw [List.countP_map, List.countP_filter]
    exact List.countP_congr fun q _ => by simp [Event.isInvoked]

/-- A command that runs no queue makes at most one call, and leaves the server alone if it makes none. -/
theorem onCommand_of_not_runsQueue (srv : Config) (handler : σ → List Str → Except Str Str × σ)
    (h : runsQueue c args = false) (s : σ) :
    ((onCommand srv handler c s args).events.any Event.isInvoked = true ∧ callCount srv c args = 1) ∨
    ((onCommand srv handler c s args).events.any Event.isInvoked = false ∧ callCount srv c args = 0 ∧
      (onCommand srv handler c s args).server = s) := by
  unfold callCount
  rw [← (onCommand_silent srv handler s).2]
  cases args with
  | nil => exact .inr ⟨rfl, rfl, rfl⟩
  | cons name rest =>
    have hqueue : ¬ (toUpper name = str "EXEC" ∧ c.inMulti ∧ c.queue ≠ []) := of_decide_eq_false h
    unfold onCommand
    dsimp only
    split_ifs with _ _ _ _ hexec hmulti hempty
    all_goals try exact .inr ⟨rfl, rfl, rfl⟩
    · exact absurd ⟨hexec, by simpa using hmulti, hempty⟩ hqueue
    · cases denial srv c name (name :: rest) <;> exact .inr ⟨rfl, rfl, rfl⟩
    · unfold onAuth
      cases credentials (name :: rest) with
      | none => exact .inr ⟨rfl, rfl, rfl⟩
      | some login =>
        dsimp only
        split_ifs <;> exact .inr ⟨rfl, rfl, rfl⟩
    · cases denial srv c (toUpper name) (name :: rest) with
      | some err => exact .inr ⟨rfl, rfl, rfl⟩
      | none => exact .inl ⟨rfl, rfl⟩

/-! ### What a turn does -/

theorem Session.step_called (x : Session σ) (s : σ) (h : (x.step srv handler s).2.2 = true) :
    x.pending srv = (x.step srv handler s).1.commands.length :: (x.step srv handler s).1.pending srv := by
  unfold Session.step at h ⊢
  unfold Session.pending
  cases hexec : x.exec with
  | some e =>
    simp only [hexec] at h ⊢
    cases hrest : e.rest with
    | nil =>
      rw [hrest] at h
      cases h
    | cons q rest =>
      simp only [hrest] at h ⊢
      rw [List.countP_cons_of_pos h, List.replicate_succ, List.cons_append]
      have hconn : (e.step srv handler s q rest).1.conn = e.conn ∧ (e.step srv handler s q rest).1.rest = rest := by
        unfold Exec.step
        split <;> exact ⟨rfl, rfl⟩
      rw [hconn.1, hconn.2]
  | none =>
    simp only [hexec] at h ⊢
    cases hcommands : x.commands with
    | nil =>
      rw [hcommands] at h
      cases h
    | cons args commands =>
      simp only [hcommands] at h ⊢
      split_ifs at h ⊢ with hruns
      rcases onCommand_of_not_runsQueue srv handler (Bool.eq_false_iff.2 hruns) s with
        ⟨-, hcount⟩ | ⟨hnone, -⟩
      · simp only [callLabels, hcount, (onCommand_silent srv handler s).1]
        rfl
      · exact absurd (hnone.symm.trans h) Bool.false_ne_true

theorem Session.step_silent (x : Session σ) (s : σ) (h : (x.step srv handler s).2.2 = false) :
    x.pending srv = (x.step srv handler s).1.pending srv ∧ (x.step srv handler s).2.1 = s := by
  unfold Session.step at h ⊢
  unfold Session.pending
  cases hexec : x.exec with
  | some e =>
    simp only [hexec] at h ⊢
    cases hrest : e.rest with
    | nil => exact ⟨rfl, rfl⟩
    | cons q rest =>
      simp only [hrest] at h ⊢
      obtain ⟨err, herr⟩ := Option.isSome_iff_exists.1 (Option.isNone_eq_false_iff.1 h)
      rw [List.countP_cons_of_neg (Bool.eq_false_iff.1 h)]
      simp only [Exec.step, herr, and_self]
  | none =>
    simp only [hexec] at h ⊢
    cases hcommands : x.commands with
    | nil => simp [hexec, hcommands]
    | cons args commands =>
      simp only [hcommands] at h ⊢
      split_ifs at h ⊢ with hruns
      · obtain ⟨hcount, hafter⟩ := onCommand_of_runsQueue srv hruns
        simp only [callLabels, hcount, hafter, and_self]
      · rcases onCommand_of_not_runsQueue srv handler (Bool.eq_false_iff.2 hruns) s with
          ⟨hsome, -⟩ | ⟨-, hcount, hserver⟩
        · exact absurd (h.symm.trans hsome) Bool.false_ne_true
        · simp only [callLabels, hcount, (onCommand_silent srv handler s).1]
          exact ⟨rfl, hserver⟩

variable {x : Sessions σ} {i : ℕ}

theorem Sessions.step_eq {session : Session σ} (hi : x.sessions[i]? = some session) :
    x.step srv handler i = ⟨(session.step srv handler x.server).2.1,
      x.sessions.set i (session.step srv handler x.server).1,
      x.calls ++ if (session.step srv handler x.server).2.2 then
        [(i, (session.step srv handler x.server).1.commands.length)] else []⟩ := by
  unfold Sessions.step
  rw [hi]

theorem Sessions.getElem_step_self {session : Session σ} (hi : x.sessions[i]? = some session) :
    (x.step srv handler i).sessions[i]? = some (session.step srv handler x.server).1 := by
  rw [Sessions.step_eq hi]
  exact List.getElem?_set_self (List.getElem?_eq_some_iff.1 hi).1

theorem Sessions.getElem_step_ne {j : ℕ} (h : i ≠ j) :
    (x.step srv handler i).sessions[j]? = x.sessions[j]? := by
  cases hi : x.sessions[i]? with
  | none => rw [Sessions.step, hi]
  | some session =>
    rw [Sessions.step_eq hi]
    exact List.getElem?_set_ne h

/-- **One turn**: the first of the pending calls is made, or the server is left alone. -/
theorem Sessions.step_cases (srv : Config) (handler : σ → List Str → Except Str Str × σ) (x : Sessions σ) (i : ℕ) :
    (∃ k, (x.step srv handler i).calls = x.calls ++ [(i, k)] ∧
      x.pending srv i = k :: (x.step srv handler i).pending srv i) ∨
    ((x.step srv handler i).calls = x.calls ∧ (x.step srv handler i).server = x.server ∧
      x.pending srv i = (x.step srv handler i).pending srv i) := by
  unfold Sessions.pending
  cases hi : x.sessions[i]? with
  | none =>
    refine .inr ?_
    rw [Sessions.step, hi]
    simp [hi]
  | some session =>
    rw [Sessions.getElem_step_self hi, Sessions.step_eq hi]
    cases hcalled : (session.step srv handler x.server).2.2 with
    | true => exact .inl ⟨_, rfl, session.step_called x.server hcalled⟩
    | false =>
      obtain ⟨hpending, hserver⟩ := session.step_silent x.server hcalled
      exact .inr ⟨List.append_nil _, hserver, hpending⟩

theorem Sessions.run_append (x : Sessions σ) (l l' : List ℕ) :
    x.run srv handler (l ++ l') = (x.run srv handler l).run srv handler l' := List.foldl_append

theorem Sessions.calls_sublist (schedule : List ℕ) (x : Sessions σ) :
    List.Sublist x.calls (x.run srv handler schedule).calls := by
  induction schedule generalizing x with
  | nil => exact List.Sublist.refl _
  | cons i schedule ih =>
    refine List.Sublist.trans ?_ (ih (x.step srv handler i))
    rcases Sessions.step_cases srv handler x i with ⟨k, hcalls, -⟩ | ⟨hcalls, -⟩
    · rw [hcalls]
      exact List.sublist_append_left _ _
    · rw [hcalls]

/-! ### Which clients keep transactions contiguous -/

/-- The calls made and the calls pending are those of the clients. -/
def Sessions.Accounted (srv : Config) (clients : List (List (List Str))) (x : Sessions σ) : Prop :=
  ∀ i k, x.calls.count (i, k) + (x.pending srv i).count k = (clientCalls srv clients i).count k

theorem Sessions.pending_start (s : σ) (clients : List (List (List Str))) (i : ℕ) :
    (Sessions.start srv s clients).pending srv i = clientCalls srv clients i := by
  unfold Sessions.pending Sessions.start clientCalls
  rw [List.getElem?_map]
  cases clients[i]? <;> rfl

theorem Sessions.Accounted.run {clients : List (List (List Str))} : ∀ {schedule : List ℕ} {x : Sessions σ},
    x.Accounted srv clients → (x.run srv handler schedule).Accounted srv clients
  | [], _, hx => hx
  | i :: schedule, x, hx => by
    suffices hstep : (x.step srv handler i).Accounted srv clients from hstep.run
    intro j k
    rw [← hx j k]
    by_cases hij : i = j
    · subst hij
      rcases Sessions.step_cases srv handler x i with ⟨l, hcalls, hpending⟩ | ⟨hcalls, -, hpending⟩
      · rw [hcalls, hpending, List.count_append, List.count_singleton, List.count_cons]
        by_cases hkl : l = k
        · simp [hkl]
          omega
        · simp [hkl]
      · rw [hcalls, hpending]
    · have hpending : (x.step srv handler i).pending srv j = x.pending srv j := by
        rw [Sessions.pending, Sessions.getElem_step_ne hij, Sessions.pending]
      rw [hpending]
      rcases Sessions.step_cases srv handler x i with ⟨l, hcalls, -⟩ | ⟨hcalls, -⟩
      · rw [hcalls, List.count_append, List.count_singleton]
        simp [hij]
      · rw [hcalls]

theorem Sessions.Accounted.contiguous {clients : List (List (List Str))} (h : NobodyBeside srv clients)
    (hx : x.Accounted srv clients) : Contiguous x.calls := by
  intro a _ b hb hab
  by_contra hne
  have htwice : 2 ≤ (clientCalls srv clients a.1).count a.2 := by
    have hcount := hab.count_le a
    have hthree : 2 ≤ List.count a [a, b, a] := by
      rw [List.count_cons_self, List.count_cons, List.count_cons_self]
      omega
    have haccount := hx a.1 a.2
    rw [Prod.mk.eta] at haccount
    omega
  have hnone := h a.1 b.1 (Ne.symm hne) ⟨a.2, htwice⟩
  have haccount := hx b.1 b.2
  rw [hnone, Prod.mk.eta, List.count_nil] at haccount
  exact List.count_eq_zero.1 (by omega) hb

/-- The commands left, and what is left of the transaction. -/
def Session.size (x : Session σ) : ℕ × ℕ := (x.commands.length, x.exec.elim 0 fun e => e.rest.length + 1)

theorem Session.size_step (x : Session σ) (s : σ) (hpending : x.pending srv ≠ []) :
    Prod.Lex (· < ·) (· < ·) (x.step srv handler s).1.size x.size := by
  unfold Session.step Session.size
  cases hexec : x.exec with
  | some e =>
    dsimp only
    cases hrest : e.rest with
    | nil => exact Prod.Lex.right _ (by simp)
    | cons q rest =>
      refine Prod.Lex.right _ ?_
      have hlen : (e.step srv handler s q rest).1.rest = rest := by
        unfold Exec.step
        split <;> rfl
      simp [hlen, hrest]
  | none =>
    dsimp only
    cases hcommands : x.commands with
    | nil => simp [Session.pending, hexec, hcommands, callLabels] at hpending
    | cons args commands =>
      dsimp only
      split_ifs <;> exact Prod.Lex.left _ _ (Nat.lt_succ_self _)

/-- A connection that goes on alone makes its next call. -/
theorem Sessions.exists_call (handler : σ → List Str → Except Str Str × σ) {k : ℕ} {rest : List ℕ} :
    ∀ {size : ℕ × ℕ} {x : Sessions σ},
    (x.sessions[i]?).elim (0, 0) Session.size = size → x.pending srv i = k :: rest → ∃ n,
      (x.run srv handler (List.replicate n i)).calls = x.calls ++ [(i, k)] ∧
      (x.run srv handler (List.replicate n i)).pending srv i = rest ∧
      ∀ j, i ≠ j → (x.run srv handler (List.replicate n i)).sessions[j]? = x.sessions[j]? := by
  intro size
  induction size using (Prod.lex Nat.lt_wfRel Nat.lt_wfRel).wf.induction with
  | _ size ih =>
    intro x hsize hpending
    rcases Sessions.step_cases srv handler x i with ⟨l, hcalls, hstep⟩ | ⟨hcalls, -, hstep⟩
    · obtain ⟨rfl, rfl⟩ := List.cons.inj (hpending.symm.trans hstep)
      exact ⟨1, hcalls, rfl, fun j hij => Sessions.getElem_step_ne hij⟩
    · cases hi : x.sessions[i]? with
      | none =>
        rw [Sessions.pending, hi] at hpending
        cases hpending
      | some session =>
        have hne : session.pending srv ≠ [] := by
          rw [Sessions.pending, hi, Option.elim_some] at hpending
          exact hpending ▸ List.cons_ne_nil _ _
        obtain ⟨n, hn, hrest, hothers⟩ := ih (session.step srv handler x.server).1.size
          (by rw [← hsize, hi]; exact session.size_step x.server hne)
          (by rw [Sessions.getElem_step_self hi]; rfl) (hstep.symm.trans hpending)
        refine ⟨n + 1, hn.trans (by rw [hcalls]), hrest, fun j hij => ?_⟩
        exact (hothers j hij).trans (Sessions.getElem_step_ne hij)

theorem Sessions.exists_calls (handler : σ → List Str → Except Str Str × σ) (rest : List ℕ) :
    ∀ (made : List ℕ) {x : Sessions σ},
    x.pending srv i = made ++ rest → ∃ n,
      (x.run srv handler (List.replicate n i)).calls = x.calls ++ made.map (i, ·) ∧
      (x.run srv handler (List.replicate n i)).pending srv i = rest ∧
      ∀ j, i ≠ j → (x.run srv handler (List.replicate n i)).sessions[j]? = x.sessions[j]?
  | [], x, h => ⟨0, (List.append_nil _).symm, h, fun _ _ => rfl⟩
  | k :: made, x, h => by
    obtain ⟨n, hcalls, hpending, hothers⟩ := Sessions.exists_call handler rfl h
    obtain ⟨m, hcalls', hpending', hothers'⟩ := Sessions.exists_calls handler rest made hpending
    refine ⟨n + m, ?_, ?_, fun j hij => ?_⟩ <;> rw [List.replicate_add, Sessions.run_append]
    · rw [hcalls', hcalls, List.map_cons, List.append_assoc, List.singleton_append]
    · exact hpending'
    · exact (hothers' j hij).trans (hothers j hij)

theorem Sessions.exists_not_contiguous (handler : σ → List Str → Except Str Str × σ) (s : σ)
    {clients : List (List (List Str))} {i j k : ℕ} (hij : i ≠ j)
    (htwice : 2 ≤ (clientCalls srv clients i).count k) (hother : clientCalls srv clients j ≠ []) :
    ∃ schedule, ¬ Contiguous ((Sessions.start srv s clients).run srv handler schedule).calls := by
  -- one part of the calls of `i`, all calls of `j`, and the other part
  have hpair : List.Sublist ([k] ++ [k]) (clientCalls srv clients i) :=
    List.replicate_sublist_iff.2 htwice
  obtain ⟨made, rest, hcut, hmade, hrest⟩ := List.append_sublist_iff.1 hpair
  obtain ⟨l, hl⟩ := List.exists_mem_of_ne_nil _ hother
  obtain ⟨n, hcalls, hpending, hothers⟩ := Sessions.exists_calls handler rest made
    ((Sessions.pending_start s clients i).trans hcut)
  obtain ⟨m, hcalls', -, hothers'⟩ := Sessions.exists_calls handler [] (clientCalls srv clients j)
    (x := (Sessions.start srv s clients).run srv handler (List.replicate n i)) (i := j) (by
      rw [Sessions.pending, hothers j hij, List.append_nil]
      exact Sessions.pending_start s clients j)
  obtain ⟨n', hcalls'', -⟩ := Sessions.exists_calls handler [] rest
    (x := ((Sessions.start srv s clients).run srv handler (List.replicate n i)).run srv handler
      (List.replicate m j)) (i := i) (by
      rw [Sessions.pending, hothers' i (Ne.symm hij), List.append_nil]
      exact hpending)
  refine ⟨List.replicate n i ++ List.replicate m j ++ List.replicate n' i, fun h => ?_⟩
  rw [Sessions.run_append, Sessions.run_append] at h
  have hsub : List.Sublist ([(i, k)] ++ [(j, l)] ++ [(i, k)]) ((([] ++ made.map (i, ·)) ++
      (clientCalls srv clients j).map (j, ·)) ++ rest.map (i, ·)) := by
    refine List.Sublist.append (List.Sublist.append ?_ ?_) ?_
    · exact List.singleton_sublist.2 (List.mem_map_of_mem (List.singleton_sublist.1 hmade))
    · exact List.singleton_sublist.2 (List.mem_map_of_mem hl)
    · exact List.singleton_sublist.2 (List.mem_map_of_mem (List.singleton_sublist.1 hrest))
  have hstart : (Sessions.start srv s clients).calls = [] := rfl
  rw [← hstart, ← hcalls, ← hcalls', ← hcalls''] at hsub
  exact hij (h (i, k) (hsub.subset (.head _)) (j, l) (hsub.subset (.tail _ (.head _))) hsub).symm

/-! ### A transaction on its way -/

variable {q : List Str}

omit [Sha256] in
theorem repliesAlone_of_denied {c : Conn} {err : Str} (h : denial srv c (q.headD []) q = some err)
    (s : σ) (rest : List (List Str)) :
    repliesAlone srv handler c s (q :: rest) = errReply err ++ repliesAlone srv handler c s rest := by
  simp only [repliesAlone, execQueue, h]

omit [Sha256] in
theorem repliesAlone_of_allowed {c : Conn} (h : denial srv c (q.headD []) q = none) (s : σ)
    (rest : List (List Str)) : repliesAlone srv handler c s (q :: rest) =
      reply (handler s q).1 ++ repliesAlone srv handler c (handler s q).2 rest := by
  simp only [repliesAlone, execQueue, h]

/-- The replies so far are those of the queue alone, and so are the others if the rest is run alone
from now on. -/
structure Exec.OnTrack (srv : Config) (handler : σ → List Str → Except Str Str × σ) (e : Exec σ)
    (now : σ) : Prop where
  fresh : e.first = none → ∀ s, repliesAlone srv handler e.conn s e.conn.queue =
    e.out ++ repliesAlone srv handler e.conn s e.rest
  begun : ∀ s, e.first = some s → repliesAlone srv handler e.conn s e.conn.queue =
    e.out ++ repliesAlone srv handler e.conn now e.rest

omit [Sha256] in
theorem Exec.OnTrack.step {e : Exec σ} {now : σ} (h : e.OnTrack srv handler now)
    {rest : List (List Str)} (hrest : e.rest = q :: rest) :
    (e.step srv handler now q rest).1.OnTrack srv handler (e.step srv handler now q rest).2 := by
  cases hd : denial srv e.conn (q.headD []) q with
  | some err =>
    simp only [Exec.step, hd]
    refine ⟨fun hfirst s => ?_, fun s hfirst => ?_⟩
    · rw [h.fresh hfirst, hrest, repliesAlone_of_denied hd, List.append_assoc]
    · rw [h.begun s hfirst, hrest, repliesAlone_of_denied hd, List.append_assoc]
  | none =>
    simp only [Exec.step, hd]
    have hnext : ∀ s, (e.first = none ∧ s = now ∨ e.first = some s) →
        repliesAlone srv handler e.conn s e.conn.queue =
          e.out ++ reply (handler now q).1 ++ repliesAlone srv handler e.conn (handler now q).2 rest := by
      rintro s (⟨hfirst, rfl⟩ | hfirst)
      · rw [h.fresh hfirst, hrest, repliesAlone_of_allowed hd, List.append_assoc]
      · rw [h.begun s hfirst, hrest, repliesAlone_of_allowed hd, List.append_assoc]
    cases hfirst : e.first with
    | none =>
      refine ⟨(fun hnone => by cases hnone), fun s hs => hnext s (Or.inl ⟨hfirst, ?_⟩)⟩
      exact (Option.some.inj hs).symm
    | some s₀ =>
      refine ⟨(fun hnone => by cases hnone), fun s hs => hnext s (Or.inr ?_)⟩
      exact hfirst.trans hs

/-! ### Contiguous transactions are isolated -/

/-- What has been run is isolated. What is being run goes on as it would alone, from the server that was there when
its last call had been made; another server means that another connection has made a call since. -/
structure Session.Ok (srv : Config) (handler : σ → List Str → Except Str Str × σ) (i : ℕ)
    (calls : List (ℕ × ℕ)) (now : σ) (x : Session σ) : Prop where
  exec : ∀ e ∈ x.exec, ∃ seen, e.OnTrack srv handler seen ∧
    (seen = now ∨ ∃ b, b.1 ≠ i ∧ List.Sublist [(i, x.commands.length), b] calls)
  begun : ∀ e ∈ x.exec, e.first ≠ none → (i, x.commands.length) ∈ calls
  finished : ∀ e ∈ x.finished, ∀ s ∈ e.first, e.out = repliesAlone srv handler e.conn s e.conn.queue

variable {calls : List (ℕ × ℕ)} {now : σ} {session : Session σ}

theorem Session.Ok.step (hx : session.Ok srv handler i calls now)
    (hcalls : Contiguous (calls ++ if (session.step srv handler now).2.2 then
      [(i, (session.step srv handler now).1.commands.length)] else [])) :
    (session.step srv handler now).1.Ok srv handler i (calls ++ if (session.step srv handler now).2.2 then
      [(i, (session.step srv handler now).1.commands.length)] else []) (session.step srv handler now).2.1 := by
  cases hexec : session.exec with
  | some e =>
    obtain ⟨seen, htrack, hseen⟩ := hx.exec e hexec
    cases hrest : e.rest with
    | nil =>
      simp only [Session.step, hexec, hrest]
      refine ⟨(fun _ h => by cases h), (fun _ h => by cases h), fun e' he' s hs => ?_⟩
      rcases List.mem_append.1 he' with he' | he'
      · exact hx.finished e' he' s hs
      · obtain rfl := List.mem_singleton.1 he'
        -- nothing is left of the queue
        rw [htrack.begun s hs, hrest]
        exact (List.append_nil _).symm
    | cons q rest =>
      have hstep := htrack.step hrest
      simp only [Session.step, hexec, hrest] at hcalls ⊢
      cases hd : denial srv e.conn (q.headD []) q with
      | some err =>
        have hallows : allows srv e.conn q = false := by rw [allows, hd]; rfl
        simp only [hallows, Exec.step, hd] at hstep ⊢
        refine ⟨fun e' he' => ?_, fun e' he' hfirst => ?_, hx.finished⟩ <;> obtain rfl := Option.some.inj he'
        · exact ⟨seen, hstep, by simpa using hseen⟩
        · exact List.mem_append_left _ (hx.begun e hexec hfirst)
      | none =>
        have hallows : allows srv e.conn q = true := by rw [allows, hd]; rfl
        simp only [hallows, if_true] at hcalls ⊢
        obtain rfl : seen = now := by
          refine hseen.resolve_right fun hbroken => ?_
          obtain ⟨b, hb, hsub⟩ := hbroken
          have hthree := hsub.append (List.Sublist.refl [(i, session.commands.length)])
          exact hb (hcalls _ (hthree.subset (.head _)) b (hthree.subset (.tail _ (.head _))) hthree)
        refine ⟨fun e' he' => ?_, fun e' he' _ => ?_, hx.finished⟩ <;> obtain rfl := Option.some.inj he'
        · exact ⟨_, hstep, .inl rfl⟩
        · exact List.mem_append_right _ (.head _)
  | none =>
    cases hcommands : session.commands with
    | nil =>
      simp only [Session.step, hexec, hcommands]
      exact ⟨(fun _ h => by rw [hexec] at h; cases h), (fun _ h => by rw [hexec] at h; cases h), hx.finished⟩
    | cons args commands =>
      cases hruns : runsQueue session.conn args with
      | true =>
        simp only [Session.step, hexec, hcommands, hruns, if_true]
        refine ⟨fun e' he' => ?_, fun e' he' => ?_, hx.finished⟩ <;> obtain rfl := Option.some.inj he'
        · exact ⟨now, ⟨fun _ _ => rfl, (fun _ h => by cases h)⟩, .inl rfl⟩
        · exact fun hfirst => absurd rfl hfirst
      | false =>
        simp only [Session.step, hexec, hcommands, hruns, Bool.false_eq_true, if_false]
        exact ⟨(fun _ h => by cases h), (fun _ h => by cases h), hx.finished⟩

omit [Sha256] in
/-- Another connection makes a call. -/
theorem Session.Ok.other (hx : session.Ok srv handler i calls now) {b : ℕ × ℕ} (hb : b.1 ≠ i) (now' : σ) :
    session.Ok srv handler i (calls ++ [b]) now' where
  exec e he := by
    obtain ⟨seen, htrack, -⟩ := hx.exec e he
    by_cases hfirst : e.first = none
    · refine ⟨now', ⟨htrack.fresh, fun s hs => ?_⟩, .inl rfl⟩
      rw [hfirst] at hs
      cases hs
    · refine ⟨seen, htrack, .inr ⟨b, hb, ?_⟩⟩
      exact (List.singleton_sublist.2 (hx.begun e he hfirst)).append (List.Sublist.refl [b])
  begun e he hfirst := List.mem_append_left _ (hx.begun e he hfirst)
  finished := hx.finished

def Sessions.Ok (srv : Config) (handler : σ → List Str → Except Str Str × σ) (x : Sessions σ) : Prop :=
  ∀ i (session : Session σ), x.sessions[i]? = some session → session.Ok srv handler i x.calls x.server

theorem Sessions.Ok.step (hx : x.Ok srv handler) (hcalls : Contiguous (x.step srv handler i).calls) :
    (x.step srv handler i).Ok srv handler := by
  intro j session hj
  by_cases hij : i = j
  · subst hij
    cases hi : x.sessions[i]? with
    | none =>
      rw [Sessions.step, hi] at hj ⊢
      exact hx i session hj
    | some old =>
      rw [Sessions.getElem_step_self hi] at hj
      obtain rfl := Option.some.inj hj
      rw [Sessions.step_eq hi] at hcalls ⊢
      exact (hx i old hi).step hcalls
  · rw [Sessions.getElem_step_ne hij] at hj
    rcases Sessions.step_cases srv handler x i with ⟨k, hcall, -⟩ | ⟨hcall, hserver, -⟩
    · rw [hcall]
      exact (hx j session hj).other hij _
    · rw [hcall, hserver]
      exact hx j session hj

theorem Sessions.Ok.run : ∀ {schedule : List ℕ} {x : Sessions σ}, x.Ok srv handler →
    Contiguous (x.run srv handler schedule).calls → (x.run srv handler schedule).Ok srv handler
  | [], _, hx, _ => hx
  | i :: schedule, x, hx, hcalls =>
    (hx.step (hcalls.mono (Sessions.calls_sublist schedule (x.step srv handler i)))).run hcalls

/-- **`EXEC` is contiguous in all schedules** exactly if there is nobody beside a transaction, for any number of
connections and any commands; and a run in which all transactions are contiguous is isolated. -/
theorem contiguous_iff (srv : Config) (handler : σ → List Str → Except Str Str × σ) (s : σ)
    (clients : List (List (List Str))) :
    ((∀ schedule, Contiguous ((Sessions.start srv s clients).run srv handler schedule).calls) ↔
      NobodyBeside srv clients) ∧
    ∀ schedule, Contiguous ((Sessions.start srv s clients).run srv handler schedule).calls →
      ((Sessions.start srv s clients).run srv handler schedule).Isolated srv handler := by
  refine ⟨⟨fun h i j hij ⟨k, htwice⟩ => ?_, fun h schedule => ?_⟩, fun schedule hcalls session hsession => ?_⟩
  · by_contra hother
    obtain ⟨schedule, hnot⟩ := Sessions.exists_not_contiguous handler s hij htwice hother
    exact hnot (h schedule)
  · have hstart : (Sessions.start srv s clients).Accounted srv clients := fun i k => by
      rw [Sessions.pending_start]
      exact Nat.zero_add _
    exact hstart.run.contiguous h
  · have hstart : (Sessions.start srv s clients).Ok srv handler := by
      intro i session hi
      obtain ⟨commands, -, rfl⟩ := List.mem_map.1 (List.mem_of_getElem? hi)
      exact ⟨(fun _ h => by cases h), (fun _ h => by cases h), (fun _ h => by cases h)⟩
    obtain ⟨i, hi⟩ := List.mem_iff_getElem?.1 hsession
    exact (hstart.run hcalls i session hi).finished

end Sessions

section Instances

open Plain
local instance isolatedDigests : Sha256 := ⟨id⟩

/-- `HandleCommand` over the sharded cache. -/
def handledBy (s : Server (World Ref Str) Str) (args : List Str) :
    Except Str Str × Server (World Ref Str) Str :=
  (answered (s.handle (shardedBackend Str) 3 args).1, (s.handle (shardedBackend Str) 3 args).2)

def openConfig : Config := ⟨[], none⟩

def readerAndWriter : Sessions (Server (World Ref Str) Str) :=
  .start openConfig (.new (.init 0 0) 0)
    [[[str "MULTI"], [str "GET", str "k"], [str "GET", str "k"], [str "EXEC"]],
      [[str "SET", str "k", str "v"]]]

/-- The write comes between the two reads of the transaction. -/
theorem exec_not_isolated :
    ((readerAndWriter.run openConfig handledBy [0, 0, 0, 0, 0, 1, 0, 0]).sessions.map (·.written)) =
      [str "+OK\r\n+QUEUED\r\n+QUEUED\r\n*2\r\n$-1\r\n$1\r\nv\r\n", str "+OK\r\n"] ∧
    (readerAndWriter.run openConfig handledBy [0, 0, 0, 0, 0, 1, 0, 0]).calls = [(0, 0), (1, 0), (0, 0)] ∧
    ¬ Contiguous (readerAndWriter.run openConfig handledBy [0, 0, 0, 0, 0, 1, 0, 0]).calls ∧
    ¬ (readerAndWriter.run openConfig handledBy [0, 0, 0, 0, 0, 1, 0, 0]).Isolated openConfig
      handledBy := by
  refine ⟨?_, ?_, ?_, ?_⟩ <;> decide +kernel

-- the replies of the transaction alone
example : repliesAlone openConfig handledBy ⟨true, str "default", true, []⟩ (.new (.init 0 0) 0)
    [[str "GET", str "k"], [str "GET", str "k"]] = str "$-1\r\n$-1\r\n" := by decide +kernel

theorem contiguous_iff_after_write :
    (readerAndWriter.run openConfig handledBy [1, 0, 0, 0, 0, 0, 0, 0]).Isolated openConfig handledBy :=
  (contiguous_iff openConfig handledBy _ _).2 [1, 0, 0, 0, 0, 0, 0, 0] (by decide +kernel)

end Instances

end Wavicle.Resp3

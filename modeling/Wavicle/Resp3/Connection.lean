import Wavicle.Auth.Acl

/-! # The connection loop

`handleConnection` of `resp3/server.go`: a state machine over (authenticated, username, inMulti, queue), with
`HandleCommand` as a parameter. -/

namespace Wavicle.Resp3

open Lib Auth

section Loop

variable [Unicode] {σ : Type}

/-- What the loop reads of the `Server`. -/
structure Config where
  password : Str
  acl : Option ACL

namespace Config

def aclEnabled (srv : Config) : Bool := srv.acl.elim false ACL.enabled

/-- The server asks for a login. -/
def Secured (srv : Config) : Prop := srv.password ≠ [] ∨ srv.aclEnabled = true

def newServer [Sha256] (password : Str) : Config := ⟨password, some (newSinglePassword password)⟩

end Config

/-- The local variables of `handleConnection`. -/
structure Conn where
  authenticated : Bool
  username : Str
  inMulti : Bool
  queue : List (List Str)

def Conn.init (srv : Config) : Conn :=
  ⟨srv.password = [] ∧ srv.aclEnabled = false, str "default", false, []⟩

/-- What is observed of the loop: calls of `HandleCommand` and successful `AUTH`s. -/
inductive Event where
  | invoked (args : List Str)
  | authSucceeded

/-- What one command leads to: the connection and the server afterwards, what is written, and what was run. -/
structure Turn (σ : Type) where
  conn : Conn
  server : σ
  written : Str
  events : List Event

def errReply (err : Str) : Str := str "-ERR " ++ err ++ str "\r\n"

def reply : Except Str Str → Str
  | .ok resp => resp
  | .error err => errReply err

/-- `args[1]`, `args[3]`, …, given the arguments after the command name. -/
def everyOther : List Str → List Str
  | [] => []
  | [k] => [k]
  | k :: _ :: rest => k :: everyOther rest

def keylessCommands : List Str :=
  [str "PING", str "DBSIZE", str "INFO", str "HELLO", str "CLIENT", str "CONFIG", str "FLUSHDB",
    str "FLUSHALL", str "SCRIPT", str "FUNCTION", str "MULTI", str "EXEC", str "DISCARD",
    str "SCAN", str "KEYS"]

def allKeys : List Str → List Str
  | [] => []
  | [_] => []
  | name :: key :: rest =>
    let cmd := toUpper name
    if cmd ∈ keylessCommands then []
    else if cmd ∈ [str "MGET", str "DEL", str "EXISTS"] then key :: rest
    else if cmd = str "MSET" then everyOther (key :: rest)
    else [key]

/-- The ACL test made before a command is queued or run: the first refusal over its keys. -/
def denial (srv : Config) (c : Conn) (cmd : Str) (args : List Str) : Option Str :=
  match srv.acl with
  | none => none
  | some acl =>
    if acl.enabled ∧ c.authenticated then
      (allKeys args).findSome? fun k => acl.authorize c.username cmd k
    else none

/-- The loop of `EXEC` over the queue: the server state, the bytes written, the events. -/
def execQueue (srv : Config) (handler : σ → List Str → Except Str Str × σ) (c : Conn) :
    σ → List (List Str) → σ × Str × List Event
  | s, [] => (s, [], [])
  | s, q :: qs =>
    match denial srv c (q.headD []) q with
    | some err =>
      let (s', out, evs) := execQueue srv handler c s qs
      (s', errReply err ++ out, evs)
    | none =>
      let (r, s₁) := handler s q
      let (s', out, evs) := execQueue srv handler c s₁ qs
      (s', reply r ++ out, .invoked q :: evs)

/-- The user and password that an `AUTH` names. -/
def credentials : List Str → Option (Str × Str)
  | [_, pass] => some (str "default", pass)
  | _ :: user :: pass :: _ => some (user, pass)
  | _ => none

def accepts [Sha256] (srv : Config) (user pass : Str) : Bool :=
  match srv.acl with
  | some acl => if acl.enabled then acl.authenticate user pass
    else srv.password = [] ∨ pass = srv.password
  | none => srv.password = [] ∨ pass = srv.password

def onAuth [Sha256] (srv : Config) (c : Conn) (s : σ) (args : List Str) : Turn σ :=
  match credentials args with
  | none => ⟨c, s, errReply (str "wrong number of arguments for 'auth' command"), []⟩
  | some (user, pass) =>
    if accepts srv user pass then
      ⟨{ c with authenticated := true, username := user }, s, str "+OK\r\n", [.authSucceeded]⟩
    else ⟨c, s, errReply (str "invalid password"), []⟩

/-- One pass of the loop of `handleConnection`, for the command `args`. -/
def onCommand [Sha256] (srv : Config) (handler : σ → List Str → Except Str Str × σ) (c : Conn)
    (s : σ) (args : List Str) : Turn σ :=
  match args with
  | [] => ⟨c, s, [], []⟩
  | name :: _ =>
    let cmd := toUpper name
    if cmd = str "MULTI" then
      if c.inMulti then ⟨c, s, errReply (str "MULTI calls can not be nested"), []⟩
      else ⟨{ c with inMulti := true, queue := [] }, s, str "+OK\r\n", []⟩
    else if cmd = str "DISCARD" then
      if !c.inMulti then ⟨c, s, errReply (str "DISCARD without MULTI"), []⟩
      else ⟨{ c with inMulti := false, queue := [] }, s, str "+OK\r\n", []⟩
    else if cmd = str "EXEC" then
      if !c.inMulti then ⟨c, s, errReply (str "EXEC without MULTI"), []⟩
      else if c.queue = [] then ⟨{ c with inMulti := false }, s, str "*0\r\n", []⟩
      else
        let (s', out, evs) := execQueue srv handler c s c.queue
        ⟨{ c with inMulti := false, queue := [] }, s',
          str "*" ++ decimal c.queue.length ++ str "\r\n" ++ out, evs⟩
    else if c.inMulti then
      match denial srv c name args with
      | some err => ⟨c, s, errReply err, []⟩
      | none => ⟨{ c with queue := c.queue ++ [args] }, s, str "+QUEUED\r\n", []⟩
    else if cmd = str "AUTH" then onAuth srv c s args
    else if !c.authenticated ∧ cmd ≠ str "PING" then
      ⟨c, s, str "-NOAUTH Authentication required.\r\n", []⟩
    else
      match denial srv c cmd args with
      | some err => ⟨c, s, errReply err, []⟩
      | none =>
        let (r, s') := handler s args
        ⟨c, s', reply r, [.invoked args]⟩

def serve [Sha256] (srv : Config) (handler : σ → List Str → Except Str Str × σ) :
    Conn → σ → List (List Str) → Turn σ
  | c, s, [] => ⟨c, s, [], []⟩
  | c, s, args :: cmds =>
    let t := onCommand srv handler c s args
    let t' := serve srv handler t.conn t.server cmds
    ⟨t'.conn, t'.server, t.written ++ t'.written, t.events ++ t'.events⟩

/-! ### The authentication gate -/

def IsPing (args : List Str) : Prop := ∃ name rest, args = name :: rest ∧ toUpper name = str "PING"

/-- No command but `PING` is invoked before an `AUTH` has succeeded; `authed` says whether one has
already. -/
def Gated : Bool → List Event → Prop
  | _, [] => True
  | _, .authSucceeded :: evs => Gated true evs
  | authed, .invoked args :: evs => (authed = true ∨ IsPing args) ∧ Gated authed evs

/-- `args` is an `EXEC` that runs a queue with a command other than `PING` on a connection that has
not authenticated. -/
def RunsUnauthenticated (c : Conn) (args : List Str) : Prop :=
  (∃ name rest, args = name :: rest ∧ toUpper name = str "EXEC") ∧
    c.inMulti = true ∧ c.authenticated = false ∧ ∃ q ∈ c.queue, ¬ IsPing q

def authedAfter : Bool → List Event → Bool
  | authed, [] => authed
  | _, .authSucceeded :: evs => authedAfter true evs
  | authed, .invoked _ :: evs => authedAfter authed evs

theorem gated_true : ∀ evs : List Event, Gated true evs
  | [] => trivial
  | .authSucceeded :: evs => gated_true evs
  | .invoked _ :: evs => ⟨Or.inl rfl, gated_true evs⟩

theorem gated_append : ∀ (authed : Bool) (evs evs' : List Event),
    Gated authed (evs ++ evs') ↔ Gated authed evs ∧ Gated (authedAfter authed evs) evs'
  | _, [], _ => by simp [Gated, authedAfter]
  | _, .authSucceeded :: evs, evs' => gated_append true evs evs'
  | authed, .invoked _ :: evs, evs' => by
    simp only [List.cons_append, Gated, authedAfter, gated_append authed evs evs', and_assoc]

theorem gated_invoked (qs : List (List Str)) : Gated false (qs.map .invoked) ↔ ∀ q ∈ qs, IsPing q := by
  induction qs with
  | nil => simp [Gated]
  | cons q qs ih => simp [Gated, ih]

theorem denial_of_unauthenticated (srv : Config) {c : Conn} (h : c.authenticated = false)
    (cmd : Str) (args : List Str) : denial srv c cmd args = none := by
  unfold denial
  cases srv.acl <;> simp [h]

section Exec

variable (srv : Config) (handler : σ → List Str → Except Str Str × σ) (c : Conn)

theorem authedAfter_execQueue (authed : Bool) : ∀ (s : σ) (qs : List (List Str)),
    authedAfter authed (execQueue srv handler c s qs).2.2 = authed
  | _, [] => rfl
  | s, q :: qs => by
    unfold execQueue
    split
    · exact authedAfter_execQueue authed s qs
    · exact authedAfter_execQueue authed _ qs

theorem events_execQueue_of_unauthenticated (h : c.authenticated = false) :
    ∀ (s : σ) (qs : List (List Str)), (execQueue srv handler c s qs).2.2 = qs.map .invoked
  | _, [] => rfl
  | s, q :: qs => by
    unfold execQueue
    rw [denial_of_unauthenticated srv h]
    simp [events_execQueue_of_unauthenticated h _ qs]

end Exec

section Step

variable [Sha256] (srv : Config) (handler : σ → List Str → Except Str Str × σ)

theorem authenticated_onCommand (c : Conn) (s : σ) (args : List Str) :
    (onCommand srv handler c s args).conn.authenticated =
      authedAfter c.authenticated (onCommand srv handler c s args).events := by
  cases args with
  | nil => rfl
  | cons name rest =>
    simp only [onCommand, onAuth]
    split_ifs <;> try rfl
    · exact (authedAfter_execQueue srv handler c c.authenticated s c.queue).symm
    · split <;> rfl
    · split
      · rfl
      · split_ifs <;> rfl
    · split <;> rfl

theorem gated_exec_iff {c : Conn} (hauth : c.authenticated = false) (s : σ) {name : Str}
    (hexec : toUpper name = str "EXEC") (rest : List Str) :
    Gated false (onCommand srv handler c s (name :: rest)).events ↔
      (c.inMulti = true → ∀ q ∈ c.queue, IsPing q) := by
  have hm : str "EXEC" ≠ str "MULTI" := by decide
  have hd : str "EXEC" ≠ str "DISCARD" := by decide
  simp only [onCommand, hexec, if_neg hm, if_neg hd, if_pos]
  split_ifs with hmulti hqueue
  · simp_all [Gated]
  · simp [Gated, hqueue]
  · simp only [events_execQueue_of_unauthenticated srv handler c hauth, gated_invoked]
    simp_all

/-- A command outside a transaction's `EXEC` reaches `HandleCommand` unauthenticated only if it is
`PING`. -/
theorem gated_of_not_exec {c : Conn} (hauth : c.authenticated = false) (s : σ) {name : Str}
    (hexec : toUpper name ≠ str "EXEC") (rest : List Str) :
    Gated false (onCommand srv handler c s (name :: rest)).events := by
  simp only [onCommand, onAuth, if_neg hexec, denial_of_unauthenticated srv hauth]
  split_ifs with _ _ _ _ _ _ hnoauth <;> try trivial
  · split
    · trivial
    · split_ifs <;> trivial
  · refine ⟨Or.inr ⟨name, rest, rfl, ?_⟩, trivial⟩
    simpa [hauth] using hnoauth

/-- **One pass of the loop**: the gate is passed only by an `EXEC` of a queue filled before
authentication. -/
theorem gated_onCommand_iff (c : Conn) (s : σ) (args : List Str) :
    Gated c.authenticated (onCommand srv handler c s args).events ↔ ¬ RunsUnauthenticated c args := by
  cases hauth : c.authenticated with
  | true => simp [RunsUnauthenticated, hauth, gated_true]
  | false =>
    cases args with
    | nil => simp [onCommand, Gated, RunsUnauthenticated]
    | cons name rest =>
      by_cases hexec : toUpper name = str "EXEC"
      · rw [gated_exec_iff srv handler hauth s hexec]
        simp [RunsUnauthenticated, hexec, hauth]
      · simp [gated_of_not_exec srv handler hauth s hexec, RunsUnauthenticated, hexec]

theorem gated_serve_iff (cmds : List (List Str)) : ∀ (c : Conn) (s : σ),
    Gated c.authenticated (serve srv handler c s cmds).events ↔
      ∀ pre args post, cmds = pre ++ args :: post →
        ¬ RunsUnauthenticated (serve srv handler c s pre).conn args := by
  induction cmds with
  | nil => simp [serve, Gated]
  | cons a cmds ih =>
    intro c s
    simp only [serve, gated_append, gated_onCommand_iff, ← authenticated_onCommand, ih]
    constructor
    · rintro ⟨hhead, htail⟩ pre args post h
      cases pre with
      | nil =>
        obtain ⟨rfl, -⟩ := List.cons.inj h
        exact hhead
      | cons b pre =>
        obtain ⟨rfl, hcmds⟩ := List.cons.inj h
        exact htail pre args post hcmds
    · intro h
      exact ⟨h [] a cmds rfl, fun pre args post hcmds => h (a :: pre) args post (by simp [hcmds])⟩

/-- **The authentication gate.** On a server with a password or an ACL, a sequence of commands gets
nothing but `PING` to `HandleCommand` before a successful `AUTH` exactly when none of them is an
`EXEC` that finds the connection unauthenticated, in a transaction, and with a command other than
`PING` in its queue. -/
theorem gated_iff (h : srv.Secured) (s : σ) (cmds : List (List Str)) :
    Gated false (serve srv handler (.init srv) s cmds).events ↔
      ∀ pre args post, cmds = pre ++ args :: post →
        ¬ RunsUnauthenticated (serve srv handler (.init srv) s pre).conn args := by
  have hinit : (Conn.init srv).authenticated = false := by
    rcases h with h | h <;> simp [Conn.init, h]
  rw [← gated_serve_iff, hinit]

end Step

end Loop

section Instances

local instance asciiTables : Unicode := ⟨id, id⟩

local instance plainDigests : Sha256 := ⟨id⟩

def sayOK (s : Unit) (_ : List Str) : Except Str Str × Unit := (.ok (str "+OK\r\n"), s)

def secretServer : Config := .newServer (str "secret")

theorem gated_iff_ping_auth_set : secretServer.Secured ∧
    (Gated false (serve secretServer sayOK (.init secretServer) ()
        [[str "PING"], [str "AUTH", str "secret"], [str "SET", str "k", str "v"]]).events ↔ ∀ pre args post,
        [[str "PING"], [str "AUTH", str "secret"], [str "SET", str "k", str "v"]] = pre ++ args :: post →
        ¬ RunsUnauthenticated (serve secretServer sayOK (.init secretServer) () pre).conn args) :=
  ⟨Or.inl (by decide), gated_iff secretServer sayOK (Or.inl (by decide)) () _⟩

/-- `MULTI`, `SET k v`, `EXEC` on a fresh connection runs the `SET` without any `AUTH`. -/
theorem multi_set_exec_not_gated : secretServer.Secured ∧ (serve secretServer sayOK (.init secretServer) ()
      [[str "MULTI"], [str "SET", str "k", str "v"], [str "EXEC"]]).events =
        [.invoked [str "SET", str "k", str "v"]] ∧
    ¬ Gated false (serve secretServer sayOK (.init secretServer) ()
      [[str "MULTI"], [str "SET", str "k", str "v"], [str "EXEC"]]).events := by
  have hevents : (serve secretServer sayOK (.init secretServer) ()
      [[str "MULTI"], [str "SET", str "k", str "v"], [str "EXEC"]]).events =
        [.invoked [str "SET", str "k", str "v"]] := by rfl
  refine ⟨Or.inl (by decide), hevents, ?_⟩
  rw [hevents]
  rintro ⟨hauth | ⟨name, rest, hargs, hping⟩, -⟩
  · exact Bool.noConfusion hauth
  · obtain ⟨rfl, -⟩ := List.cons.inj hargs
    exact absurd hping (by decide)

end Instances

end Wavicle.Resp3

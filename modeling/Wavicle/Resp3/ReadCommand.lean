import Wavicle.Lib.Bufio
import Wavicle.Lib.Decimal
import Wavicle.Lib.Utf8

/-! # Reading commands

`readCommand` of `resp3/server.go`: a command is an array of bulk strings, or a line of words. It takes the
bytes that the connection has still to give and leaves the rest.

`reads_pipelined` says that what clients send is read as it was sent, whatever bytes the arguments have. -/

namespace Wavicle.Resp3

open Lib

def maxArgs : ℕ := 10000

def maxArgLen : ℕ := 2 ^ 20

def readLine (s : Str) : Except ReadError (Str × Str) :=
  match readString s with
  | none => .error .eof
  | some (line, rest) => .ok (trimRight line (str "\r\n"), rest)

/-- The error at the argument number `i`. -/
def invalidBulkLength (i : ℕ) (len : Str) : ReadError :=
  .failed (str "invalid bulk string length at arg " ++ decimal i ++ str ": " ++ len)

/-- The argument number `i`: its length on a line, then its bytes and a line end of which nothing is
tested. -/
def readArg (i : ℕ) (s : Str) : Except ReadError (Str × Str) := do
  let (bulk, s) ← readLine s
  match bulk with
  | 36 :: len =>
    match parseInt len with
    | none => .error (invalidBulkLength i len)
    | some n =>
      if n < -1 ∨ maxArgLen < n.toInt then .error (invalidBulkLength i len)
      else if n = -1 then .ok ([], s)
      else
        let (data, s) ← readFull (n.toInt.toNat + 2) s
        .ok (data.take n.toInt.toNat, s)
  | _ => .error (.failed (str "expected bulk string at arg " ++ decimal i))

/-- The arguments from number `i` on. -/
def readArgs : ℕ → ℕ → Str → Except ReadError (List Str × Str)
  | 0, _, s => .ok ([], s)
  | count + 1, i, s => do
    let (arg, s) ← readArg i s
    let (args, s) ← readArgs count (i + 1) s
    .ok (arg :: args, s)

/-- `readCommand`: the words of the command, and the bytes that are left -/
def readCommand (s : Str) : Except ReadError (List Str × Str) := do
  let (line, s) ← readLine s
  match line with
  | [] => .ok ([], s)
  | 42 :: len =>
    match parseInt len with
    | none => .error (.failed (str "invalid array length: " ++ len))
    | some count =>
      if count ≤ 0 ∨ maxArgs < count.toInt then
        .error (.failed (str "invalid array length: " ++ len))
      else readArgs count.toInt.toNat 0 s
  | line =>
    if maxArgs < (fields line).length then
      .error (.failed (str "too many arguments: " ++ decimal (fields line).length ++ str " > " ++
        decimal maxArgs))
    else .ok (fields line, s)

/-- So many calls of `readCommand`, one after another. -/
def readCommands : ℕ → Str → Except ReadError (List (List Str) × Str)
  | 0, s => .ok ([], s)
  | n + 1, s => do
    let (cmd, s) ← readCommand s
    let (cmds, s) ← readCommands n s
    .ok (cmd :: cmds, s)

/-! ### What clients send -/

def header (kind : UInt8) (n : ℕ) : Str := kind :: decimal n ++ str "\r\n"

def encodeArg (arg : Str) : Str := header 36 arg.length ++ arg ++ str "\r\n"

def encodeCommand (args : List Str) : Str := header 42 args.length ++ args.flatMap encodeArg

theorem readLine_header {kind : UInt8} (hkind : kind ∉ str "\r\n") (n : ℕ) (s : Str) :
    readLine (header kind n ++ s) = .ok (kind :: decimal n, s) := by
  -- neither the kind nor a digit ends the line
  have hbytes : ∀ b ∈ kind :: decimal n, b ∉ str "\r\n" := by
    intro b hb
    rcases List.mem_cons.1 hb with rfl | hb
    · exact hkind
    · have hdigit := isDigit_of_mem_decimal b hb
      intro hmem
      have hcases : b = 13 ∨ b = 10 := by simpa [str] using hmem
      rcases hcases with rfl | rfl <;> exact absurd hdigit (by decide)
  have hread : readString (header kind n ++ s) = some (kind :: decimal n ++ str "\r\n", s) := by
    have hassoc : header kind n ++ s = (kind :: decimal n ++ [13]) ++ 10 :: s := by
      simp [header, str]
    rw [hassoc, readString_append]
    · simp [str]
    · intro hmem
      rcases List.mem_append.1 hmem with hmem | hmem
      · exact hbytes 10 hmem (by decide)
      · exact absurd hmem (by decide)
  rw [readLine, hread]
  dsimp only
  rw [trimRight_append (fun _ hb => hb) hbytes]

theorem readArg_encodeArg {arg : Str} (h : arg.length ≤ maxArgLen) (i : ℕ) (s : Str) :
    readArg i (encodeArg arg ++ s) = .ok (arg, s) := by
  have hsmall : arg.length < 2 ^ 63 := lt_of_le_of_lt h (by decide)
  have hint := toInt_ofInt_natCast hsmall
  have hfull : readFull (arg.length + 2) (arg ++ str "\r\n" ++ s) = .ok (arg ++ str "\r\n", s) := by
    have hne : arg ++ str "\r\n" ≠ [] := by simp [str]
    have hlen : (arg ++ str "\r\n").length = arg.length + 2 := by simp [str]
    rw [← hlen, readFull_append hne]
  have hline : readLine (encodeArg arg ++ s) =
      .ok (36 :: decimal arg.length, arg ++ str "\r\n" ++ s) := by
    rw [encodeArg, List.append_assoc, List.append_assoc, readLine_header (by decide),
      List.append_assoc]
  have hbound : ¬ (Int64.ofInt arg.length < -1 ∨ (maxArgLen : ℤ) < arg.length) := by
    rw [Int64.lt_iff_toInt_lt, hint]
    have : (-1 : Int64).toInt = -1 := rfl
    omega
  have hnull : Int64.ofInt arg.length ≠ -1 := by
    intro hn
    have := congrArg Int64.toInt hn
    rw [hint] at this
    have hneg : (-1 : Int64).toInt = -1 := rfl
    omega
  unfold readArg
  rw [hline]
  simp only [Except.bind, bind, parseInt_decimal hsmall, hint, if_neg hbound, if_neg hnull,
    Int.toNat_natCast, hfull, List.take_left]

theorem readArgs_encode : ∀ {args : List Str} (_ : ∀ a ∈ args, a.length ≤ maxArgLen) (i : ℕ) (s : Str),
    readArgs args.length i (args.flatMap encodeArg ++ s) = .ok (args, s)
  | [], _, _, _ => rfl
  | arg :: args, h, i, s => by
    rw [List.flatMap_cons, List.append_assoc, List.length_cons, readArgs,
      readArg_encodeArg (h arg (.head _))]
    have ih := readArgs_encode (List.forall_mem_cons.1 h).2 (i + 1) s
    simp only [Except.bind, bind, ih]

/-- What the reader takes: a command with a name, within its limits. -/
structure Sendable (args : List Str) : Prop where
  nonempty : args ≠ []
  few : args.length ≤ maxArgs
  short : ∀ a ∈ args, a.length ≤ maxArgLen

theorem readCommand_encode {args : List Str} (h : Sendable args) (s : Str) :
    readCommand (encodeCommand args ++ s) = .ok (args, s) := by
  have hpos : 0 < args.length := List.length_pos_iff.2 h.nonempty
  have hsmall : args.length < 2 ^ 63 := lt_of_le_of_lt h.few (by decide)
  have hint := toInt_ofInt_natCast hsmall
  have hfew := h.few
  have hbound : ¬ (Int64.ofInt args.length ≤ 0 ∨ (maxArgs : ℤ) < args.length) := by
    rw [Int64.le_iff_toInt_le, hint]
    have : (0 : Int64).toInt = 0 := rfl
    omega
  unfold readCommand
  rw [encodeCommand, List.append_assoc, readLine_header (by decide)]
  simp only [Except.bind, bind, parseInt_decimal hsmall, hint, if_neg hbound, Int.toNat_natCast]
  exact readArgs_encode h.short 0 s

/-- **Pipelined commands are read as they were sent**: in order, to the last byte, and then the input
ends. -/
theorem reads_pipelined {cmds : List (List Str)} (h : ∀ args ∈ cmds, Sendable args) :
    readCommands cmds.length (cmds.flatMap encodeCommand) = .ok (cmds, []) ∧
      readCommand [] = .error .eof := by
  refine ⟨?_, rfl⟩
  induction cmds with
  | nil => rfl
  | cons args cmds ih =>
    rw [List.flatMap_cons, List.length_cons, readCommands,
      readCommand_encode (h args (.head _))]
    simp only [Except.bind, bind, ih fun a ha => h a (.tail _ ha)]

theorem reads_pipelined_set_ping :
    (∀ args ∈ [[str "SET", str "\r\n*1\r\n$4", []], [str "PING"]], Sendable args) ∧
      readCommands 2 ([[str "SET", str "\r\n*1\r\n$4", []], [str "PING"]].flatMap encodeCommand) =
        .ok ([[str "SET", str "\r\n*1\r\n$4", []], [str "PING"]], []) := by
  have hsend : ∀ args ∈ [[str "SET", str "\r\n*1\r\n$4", []], [str "PING"]], Sendable args := by
    intro args hargs
    simp only [List.mem_cons, List.not_mem_nil, or_false] at hargs
    rcases hargs with rfl | rfl
    · exact ⟨by decide, by decide, by decide⟩
    · exact ⟨by decide, by decide, by decide⟩
  exact ⟨hsend, (reads_pipelined hsend).1⟩

end Wavicle.Resp3

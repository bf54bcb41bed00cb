import Wavicle.Resp3.CommandShapes
import Wavicle.Resp3.ServerState

/-! # Writes that the store refuses

The extended write commands do not look at the error of `AppendAtom`: once one of them has called it, its reply
is a success. -/

namespace Wavicle.Resp3

open Lib Wavicle.Core Storage Prog

section

variable {σ H : Type} [Floats] [Spaces] [Printing] [Unicode] [Runtime]

def isExtendedWrite : ExtendedCommand → Bool
  | .hmset | .hdel | .pexpire | .persist => true
  | cmd => isKeyWrite cmd

/-! ### After an append the reply is a success -/

/-- A command, whatever its operations: its reply once it has appended something. -/
abbrev Replies (p : ServerProg H Str) (b : Bool) : Prop :=
  Prog.Conforms (fun _ => True) isAppend Success p b

section

omit [Floats] [Spaces] [Printing] [Unicode] [Runtime]

theorem appendless {α : Type} {p : ServerProg H α} {key : Str} (h : p.CallsOnly (Quiet key)) :
    p.CallsOnly fun op => True ∧ isAppend op = false :=
  h.mono fun _ hop => ⟨trivial, hop.2⟩

theorem replies_hmset (rest : List Str) : Replies (H := H) (hmset rest) false := by
  cases rest with
  | nil => exact conforms_pure _
  | cons key rest =>
    unfold hmset
    dsimp only
    cases pairs rest with
    | none => exact conforms_pure _
    | some fields =>
      refine .bind (fun _ => .ite (Prog.Conforms.of_marked ?_ false) (conforms_pure _))
        (appendless (quiet_of_peeks _ (peeks_assertKeyTypeAgain key .hash)))
      exact .bind_marked (fun _ => .bind_marked (fun _ => conforms_pure_of success_okReply true)
        (callsOnly_true _)) (callsOnly_true _)

theorem replies_hdel (rest : List Str) : Replies (H := H) (hdel rest) false := by
  unfold hdel
  split
  · refine Prog.Conforms.of_marked (.bind_marked (fun _ => ?_) (callsOnly_true _)) false
    exact .bind_marked (fun _ => conforms_pure_of (success_integerReply _) true) (callsOnly_true _)
  · exact conforms_pure _

theorem replies_pexpire (rest : List Str) : Replies (H := H) (pexpire rest) false := by
  unfold pexpire
  split
  · split
    · exact conforms_pure _
    · refine .ite (conforms_pure _) (.bind (fun atom => ?_) (appendless (quiet_of_peeks _ (peeks_liveAtom _))))
      cases atom with
      | none => exact conforms_pure _
      | some cur =>
        refine Prog.Conforms.of_marked (.bind_marked (fun _ => ?_) (callsOnly_true _)) false
        exact .bind_marked (fun _ => conforms_pure_of (success_integerReply _) true) (callsOnly_true _)
  · exact conforms_pure _

theorem replies_persist (rest : List Str) : Replies (H := H) (persist rest) false := by
  cases rest with
  | nil => exact conforms_pure _
  | cons key rest =>
    refine .bind (fun atom => ?_) (appendless (quiet_of_peeks _ (peeks_liveAtom key)))
    cases atom with
    | none => exact conforms_pure _
    | some cur =>
      refine .ite (conforms_pure _) (Prog.Conforms.of_marked ?_ false)
      exact .bind_marked (fun _ => conforms_pure_of (success_integerReply _) true) (callsOnly_true _)

end

variable {cmd : ExtendedCommand}

theorem replies_of_isKeyWrite (h : isKeyWrite cmd = true) (rest : List Str) :
    Replies (H := H) (handleExtended cmd rest) false := by
  cases rest with
  | nil =>
    rw [handleExtended_nil h]
    exact conforms_pure _
  | cons key rest => exact (conforms_handleExtended h key rest).mono (fun _ _ => trivial) fun _ hq => hq

theorem replies_handleExtended (h : isExtendedWrite cmd = true) (rest : List Str) :
    Replies (H := H) (handleExtended cmd rest) false := by
  unfold isExtendedWrite at h
  split at h
  · exact replies_hmset rest
  · exact replies_hdel rest
  · exact replies_pexpire rest
  · exact replies_persist rest
  · exact replies_of_isKeyWrite h rest

def isError : Outcome → Bool
  | .ok reply => hasPrefix reply (str "-") || hasPrefix reply (str "ERR")
  | .error _ => true

omit [Floats] [Spaces] [Printing] [Unicode] [Runtime] in
theorem isError_of_success {reply : Str} (h : Success reply) : isError (.ok reply) = false := by
  obtain ⟨b, hb, rest, rfl⟩ := h
  simp only [List.mem_cons, List.not_mem_nil, or_false] at hb
  rcases hb with rfl | rfl | rfl | rfl <;> rfl

variable [DecidableEq H] [Hashing H] (B : Backend σ H)

theorem success_of_isAppend (h : isExtendedWrite cmd = true) (rest : List Str) (s : Server σ H)
    (hmark : ∃ e ∈ (runExtended cmd rest).trace (Server.step B) s, isAppend e.1 = true) :
    isError ((runExtended cmd rest).run (Server.step B) s).1 = false := by
  have hp : (do let reply ← handleExtended cmd rest; pure (.ok reply) : ServerProg H Outcome).Conforms
      (fun _ => True) isAppend (fun r => isError r = false) false :=
    ((replies_handleExtended h rest).mono (fun _ h => h) fun _ => isError_of_success).map
  have hrun : (runExtended cmd rest : ServerProg H Outcome).Conforms (fun _ => True) isAppend
      (fun r => isError r = false) false := by
    unfold runExtended
    split_ifs
    · refine .bind (fun msg => ?_) (callsOnly_ask ⟨trivial, rfl⟩)
      cases msg with
      | some msg => exact conforms_pure _
      | none => exact hp
    · exact hp
  exact hrun.run s (Or.inr hmark)

/-! ### Refused writes -/

/-- A call of `AppendAtom` that returns an error. -/
def refusal : (op : ServerOp H) → op.Res → Bool
  | .store ⟨_, .appendAtom _ _ _ _⟩, .error _ => true
  | _, _ => false

omit [Floats] [Spaces] [Printing] [Unicode] [Runtime] [DecidableEq H] [Hashing H] in
theorem isAppend_of_refusal {op : ServerOp H} {r : op.Res} (h : refusal op r = true) :
    isAppend op = true := by
  unfold refusal at h
  split at h
  · rfl
  · cases h

def refused (s : Server σ H) (cmd : ExtendedCommand) (rest : List Str) : Bool :=
  ((runExtended cmd rest).trace (Server.step B) s).any fun e => refusal e.1 e.2

/-- If a write is refused, the reply is an error, and the store and the type index are as before. -/
def FailsCleanly (s : Server σ H) (cmd : ExtendedCommand) (rest : List Str) : Prop :=
  let (r, s') := (runExtended cmd rest).run (Server.step B) s
  refused B s cmd rest = true → isError r = true ∧ s'.store = s.store ∧ s'.keyTypes = s.keyTypes

/-- **Refused writes.** Over any store and in any state, an extended write command fails cleanly exactly
if the store refuses none of the writes that it makes. -/
theorem failsCleanly_iff (s : Server σ H) {cmd : ExtendedCommand} (h : isExtendedWrite cmd = true)
    (rest : List Str) : FailsCleanly B s cmd rest ↔ refused B s cmd rest = false := by
  constructor
  · intro hclean
    by_contra hrefused
    rw [Bool.not_eq_false] at hrefused
    obtain ⟨e, he, href⟩ := List.any_eq_true.1 hrefused
    have hok := success_of_isAppend B h rest s ⟨e, he, isAppend_of_refusal href⟩
    have herr := (hclean hrefused).1
    rw [hok] at herr
    cases herr
  · intro hnone hrefused
    rw [hnone] at hrefused
    cases hrefused

end

section Instances

open Plain
local instance refusedRunes : RuneClasses := ⟨fun _ => false⟩

def downSql : Sql Unit Ref := ⟨fun _ _ _ _ _ => .error (str "connection refused"), fun _ _ _ _ => none⟩

def downServer : Server (WriteThrough Unit Ref Str) Str := .new ⟨.init 0 0, ()⟩ 0

/-- The database refuses the write of `INCR`, the reply is `1` all the same, and the key has a type. -/
theorem incr_hides_refusal : isExtendedWrite (.counter .incr) = true ∧
      refused (writeThroughBackend downSql) downServer (.counter .incr) [str "users:1:visits"] = true ∧
      ((runExtended (.counter .incr) [str "users:1:visits"]).run
        (Server.step (writeThroughBackend downSql)) downServer).1 = .ok (str ":1\r\n") ∧
      ((runExtended (.counter .incr) [str "users:1:visits"]).run
        (Server.step (writeThroughBackend downSql)) downServer).2.keyTypes.lookup
          (str "users:1:visits") = some .string ∧
      ¬ FailsCleanly (writeThroughBackend downSql) downServer (.counter .incr) [str "users:1:visits"] := by
  have hrefused : refused (writeThroughBackend downSql) downServer (.counter .incr)
      [str "users:1:visits"] = true := by decide +kernel
  have hreply : ((runExtended (.counter .incr) [str "users:1:visits"]).run
      (Server.step (writeThroughBackend downSql)) downServer).1 = .ok (str ":1\r\n") := by
    decide +kernel
  refine ⟨rfl, hrefused, hreply, by decide +kernel, fun hclean => ?_⟩
  have herr : isError ((runExtended (.counter .incr) [str "users:1:visits"]).run
      (Server.step (writeThroughBackend downSql)) downServer).1 = true := (hclean hrefused).1
  rw [hreply] at herr
  exact absurd herr (by decide)

/-- A path that names no cell is kept in the cache alone, so that nothing is refused. -/
theorem failsCleanly_iff_visits :
    FailsCleanly (writeThroughBackend downSql) downServer (.counter .incr) [str "visits"] ∧
      refused (writeThroughBackend downSql) downServer (.counter .incr) [str "users:1:visits"] = true ∧
      ¬ FailsCleanly (writeThroughBackend downSql) downServer (.counter .incr) [str "users:1:visits"] := by
  have hrefused : refused (writeThroughBackend downSql) downServer (.counter .incr)
      [str "users:1:visits"] = true := by decide +kernel
  have hclean := failsCleanly_iff (writeThroughBackend downSql) downServer
    (show isExtendedWrite (.counter .incr) = true from rfl)
  refine ⟨(hclean [str "visits"]).2 (by decide +kernel), hrefused, fun h => ?_⟩
  exact Bool.false_ne_true (((hclean [str "users:1:visits"]).1 h).symm.trans hrefused)

end Instances

end Wavicle.Resp3

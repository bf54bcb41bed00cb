import Wavicle.Resp3.Updates

/-! # What a command does to other keys

Two keys may hold the same object: equal values are interned, and a slice shares its array with the slices it
was cut from. `SREM` and `ZREM` delete members from the map itself, and `RPUSH` and `XADD` set an element of the
array itself as long as it has room; `SADD` and `ZADD` copy the map, `LPUSH` copies the array, and `LPOP` and `RPOP`
cut a slice.

* `SparesOthers`: in the state before the command, no other path holds an object that is changed in place, and no
  other path is evicted.
* `frame_iff`: exactly then the values of all other paths stay as they are. -/

namespace Wavicle.Core

/-- An expression after changes of objects. -/
def Expr.changes {H : Type} (cs : List Change) (e : Expr Ref H) : Expr Ref H :=
  cs.foldl (fun e c => e.change c) e

end Wavicle.Core

namespace Wavicle.Resp3

open Lib Wavicle.Core Storage Prog

section

variable {H : Type} [DecidableEq H] [Hashing H] {s : Server (World Ref H) H} {key : Str}

/-- What a path holds in the cache. -/
def held (s : Server (World Ref H) H) (path : Str) : Option (Expr Ref H) :=
  (s.store.cache.resident path).map (·.expr)

theorem held_changed (s : Server (World Ref H) H) (cs : List Change) (q : Str) :
    held (s.changed cs) q = (held s q).map (Expr.changes cs) := by
  induction cs generalizing s with
  | nil => exact (congrFun Option.map_id (held s q)).symm
  | cons c cs ih =>
    have hchange : held (s.change (shardedBackend H) c) q = (held s q).map (Expr.change c) := by
      unfold held
      change ((s.store.cache.change c).resident q).map _ = _
      rw [ShardedFrontierCache.resident_change, Option.map_map, Option.map_map]
      rfl
    change held ((s.change (shardedBackend H) c).changed cs) q = _
    rw [ih, hchange, Option.map_map]
    rfl

/-- **No other path is concerned** by an update: none holds an object that is changed in place, and the append is
dropped or evicts none of them. -/
def SparesOthers (s : Server (World Ref H) H) (key : Str) (upd : Update) : Prop :=
  ∀ e, upd.expr s = some e →
    (∀ q, q ≠ key → ∀ old, held s q = some old → old.changes upd.changes = old) ∧
      ((s.changed upd.changes).store.repeats e key zeroTime = true ∨
        (s.changed upd.changes).store.SparesOthers e key zeroTime)

theorem held_updated_iff (hs : s.store.Inv) (hl : s.store.cache.Limited) (upd : Update) :
    (∀ q, q ≠ key → ((s.updated key upd).cache.resident q).map (·.expr) = held s q) ↔
      SparesOthers s key upd := by
  unfold Server.updated SparesOthers
  cases upd.expr s with
  | none => exact iff_of_true (fun q _ => rfl) fun e he => absurd he (by simp)
  | some e =>
    rw [Option.elim_some]
    simp only [Option.some.injEq, forall_eq']
    have hs' := Server.inv_changed hs upd.changes
    rw [← hs'.resident_append_others_iff (Server.limited_changed hl upd.changes).balanced]
    have hbefore := held_changed s upd.changes
    unfold held at hbefore
    constructor
    · intro hkeeps
      have hstays : ∀ q, q ≠ key →
          (((s.changed upd.changes).store.append e key zeroTime).2.cache.resident q =
            (s.changed upd.changes).store.cache.resident q) := by
        intro q hq
        cases hres : ((s.changed upd.changes).store.append e key zeroTime).2.cache.resident q with
        | some a => exact ((World.resident_of_append hres).resolve_right fun h => hq h.1).symm
        | none =>
          have hnone := (hkeeps q hq).symm
          rw [hres, Option.map_none] at hnone
          have hgone := hbefore q
          rw [show (s.store.cache.resident q).map (·.expr) = none from hnone, Option.map_none] at hgone
          exact (Option.map_eq_none_iff.1 hgone).symm
      refine ⟨fun q hq old hold => ?_, hstays⟩
      have hafter := hkeeps q hq
      rw [hstays q hq, hbefore q, show (s.store.cache.resident q).map (·.expr) = some old from hold,
        show held s q = some old from hold] at hafter
      exact Option.some.inj hafter
    · rintro ⟨hspared, hstays⟩ q hq
      rw [hstays q hq, hbefore q]
      cases hold : held s q with
      | none => rw [show (s.store.cache.resident q).map (·.expr) = none from hold, Option.map_none]
      | some old =>
        rw [show (s.store.cache.resident q).map (·.expr) = some old from hold, Option.map_some,
          hspared q hq old hold]

/-! ### The commands -/

variable [Floats] [Spaces] [Printing] [Unicode] [Runtime]

def isContainerWrite : ExtendedCommand → Bool
  | .sadd | .srem | .zadd | .zrem | .push _ | .pop _ | .xadd => true
  | _ => false

/-- The command leaves the value of every path but `key` as it is. -/
def KeepsOthers (s : Server (World Ref H) H) (cmd : ExtendedCommand) (key : Str) (rest : List Str) : Prop :=
  ∀ q, q ≠ key → held (afterExtended s cmd (key :: rest)) q = held s q

/-- **Other keys.** On a server that can be reached, a command that writes a set, a sorted set, a list or a stream
leaves the values of all other paths as they are exactly if its update does not concern them. -/
theorem frame_iff (hs : s.Reachable) {cmd : ExtendedCommand} (h : isContainerWrite cmd = true) (key : Str)
    (rest : List Str) : KeepsOthers s cmd key rest ↔ SparesOthers s key (s.effect key cmd rest) := by
  have hupdate : isUpdate cmd = true := by
    cases cmd <;> first | rfl | exact absurd h Bool.false_ne_true
  rw [← held_updated_iff hs.inv hs.limited]
  unfold KeepsOthers held
  rw [resident_afterExtended hs.inv hupdate]

end

section Instances

open Plain

def twinSets : Server (World Ref Str) Str :=
  ((Server.handle (shardedBackend Str) 0 (.new (.init 0 0) 0) [str "SADD", str "a", str "x", str "y"]).2.handle
    (shardedBackend Str) 0 [str "SADD", str "b", str "x", str "y"]).2

theorem twinSets_reachable : twinSets.Reachable :=
  ((Server.reachable_new 0 0).command 0 _).command 0 _

/-- `SREM a x` takes `x` out of `b` as well: the two sets are one map. -/
theorem srem_changes_twin : twinSets.Reachable ∧ isContainerWrite .srem = true ∧ held twinSets (str "b") =
      some (.eConst (.vRecord (.map 1) [(str "x", .vInt 1), (str "y", .vInt 1)])) ∧
    held (afterExtended twinSets .srem [str "a", str "x"]) (str "b") =
      some (.eConst (.vRecord (.map 1) [(str "y", .vInt 1)])) ∧
    ¬ KeepsOthers twinSets .srem (str "a") [str "x"] := by
  have hbefore : held twinSets (str "b") =
      some (.eConst (.vRecord (.map 1) [(str "x", .vInt 1), (str "y", .vInt 1)])) := by
    decide +kernel
  have hafter : held (afterExtended twinSets .srem [str "a", str "x"]) (str "b") =
      some (.eConst (.vRecord (.map 1) [(str "y", .vInt 1)])) := by
    decide +kernel
  refine ⟨twinSets_reachable, rfl, hbefore, hafter, fun hkeeps => ?_⟩
  have heq := hkeeps (str "b") (by decide)
  rw [hbefore, hafter] at heq
  exact absurd heq (by decide)

theorem frame_iff_sadd : twinSets.Reachable ∧ KeepsOthers twinSets .sadd (str "a") [str "z"] := by
  refine ⟨twinSets_reachable, (frame_iff twinSets_reachable rfl (str "a") [str "z"]).2 fun e he => ?_⟩
  have hchanges : (twinSets.effect (str "a") .sadd [str "z"]).changes = [] := by decide +kernel
  rw [hchanges]
  have hroom : ((twinSets.effect (str "a") .sadd [str "z"]).expr twinSets).all (fun e =>
      !(twinSets.store.cache.inserted twinSets.store.now e (str "a") zeroTime).overCeiling) = true := by
    decide +kernel
  rw [he, Option.all_some, Bool.not_eq_true'] at hroom
  exact ⟨fun _ _ _ _ => rfl, .inr (.inl hroom)⟩

end Instances

end Wavicle.Resp3

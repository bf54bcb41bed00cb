import Wavicle.Lib.Serial
import Wavicle.Resp3.Frame

/-! # Read-modify-write commands

The commands that read a value and write it back do so in two calls of the store: two `INCR`s that both read
first count as one. -/

namespace Wavicle.Resp3

open Lib Wavicle.Core Storage Prog

section

variable {H : Type} [DecidableEq H] [Hashing H]

/-! ### Operations on one key -/

variable (key : Str) (s : Server (World Ref H) H)

/-- The server after a read of `key`. -/
def afterRead : Server (World Ref H) H :=
  { s with store := s.store.touched key }

theorem afterRead_afterRead :
    afterRead key (afterRead key s) = afterRead key s := by
  unfold afterRead
  simp only [World.touched_touched]

theorem held_afterRead (q : Str) :
    held (afterRead key s) q = held s q := by
  unfold held afterRead World.touched
  rw [ShardedFrontierCache.resident_touched]

def alters : ServerOp H → Bool
  | .store ⟨_, .appendAtom _ _ _ _⟩ => true
  | .store _ | .loadType _ | .now | .staleRefused | .uptime => false
  | _ => true

theorem step_afterRead {op : ServerOp H} (hop : OnKey key op) :
    ((afterRead key s).step (shardedBackend H) op).1 = (s.step (shardedBackend H) op).1 ∧
      afterRead key ((afterRead key s).step (shardedBackend H) op).2 =
        afterRead key (s.step (shardedBackend H) op).2 := by
  match op, hop with
  | .store ⟨.given, .appendAtom (.eConst v) path _ t⟩, hop =>
    obtain rfl : path = key := hop
    obtain ⟨hhash, hworld⟩ := s.store.append_touched (.eConst v) path t
    refine ⟨congrArg Except.ok hhash, ?_⟩
    unfold afterRead
    exact congrArg (fun w => ({ s with store := w } : Server (World Ref H) H)) hworld
  | .store ⟨.given, .getCurrent path⟩, hop =>
    obtain rfl : path = key := hop
    constructor
    · change ((s.store.touched path).cache.getCurrent s.store.now path).1 =
        (s.store.cache.getCurrent s.store.now path).1
      rw [ShardedFrontierCache.getCurrent_fst, ShardedFrontierCache.getCurrent_fst]
      exact congrFun (s.store.current_touched path) path
    · exact congrArg (afterRead path) (afterRead_afterRead path s)
  | .store ⟨.given, .frontierPaths⟩, _ =>
    exact ⟨s.store.cache.frontierPaths_touched s.store.now key, afterRead_afterRead key s⟩
  | .change c, _ =>
    refine ⟨rfl, ?_⟩
    unfold afterRead
    simp only [Server.step, Server.change, shardedBackend, World.touched_change,
      World.touched_touched]
  | .loadType _, _ | .now, _ | .staleRefused, _ => exact ⟨rfl, afterRead_afterRead key s⟩
  -- the others have nothing to do with the store
  | .storeType k t, _ => exact ⟨rfl, afterRead_afterRead key (s.step _ (.storeType k t)).2⟩
  | .deleteType k, _ => exact ⟨rfl, afterRead_afterRead key (s.step _ (.deleteType k)).2⟩
  | .newEConst v, _ => exact ⟨rfl, afterRead_afterRead key (s.step _ (.newEConst v)).2⟩
  | .newMap, _ => exact ⟨rfl, afterRead_afterRead key (s.step _ .newMap).2⟩
  | .newArray n, _ => exact ⟨rfl, afterRead_afterRead key (s.step _ (.newArray n)).2⟩

theorem congruent_afterRead : Turns.Congruent (shardedStep H) (afterRead key) (OnKey key) := by
  intro s t op hop hst
  obtain ⟨hs₁, hs₂⟩ := step_afterRead key s hop
  obtain ⟨ht₁, ht₂⟩ := step_afterRead key t hop
  rw [hst] at hs₁ hs₂
  exact ⟨hs₁.symm.trans ht₁, hs₂.symm.trans ht₂⟩

theorem quietReads_afterRead :
    Turns.QuietReads (shardedStep H) (afterRead key) (OnKey key) alters := by
  intro s op hop hread
  match op, hop with
  | .store ⟨.given, .getCurrent path⟩, hop =>
    obtain rfl : path = key := hop
    exact afterRead_afterRead path s
  | .store ⟨.given, .frontierPaths⟩, _ | .loadType _, _ | .now, _ | .staleRefused, _ => rfl
  | .store ⟨.given, .appendAtom (.eConst _) _ _ _⟩, _ | .change _, _ | .storeType _ _, _
  | .deleteType _, _ | .newEConst _, _ | .newMap, _ | .newArray _, _ => cases hread

/-! ### The commands -/

variable [Floats] [Spaces] [Printing] [Unicode] [Runtime]

def isReadModifyWrite : ExtendedCommand → Bool
  | .counter _ | .append | .getset | .setnx | .push _ | .pop _ | .sadd | .srem | .zadd => true
  | _ => false

abbrev Request := ExtendedCommand × List Str

def programs (reqs : List Request) : List (ServerProg H Outcome) :=
  reqs.map fun r => runExtended r.1 (key :: r.2)

def concurrently (key : Str) (reqs : List Request) (schedule : List ℕ) :
    Turns (fun op : ServerOp H => op.Res) Outcome (Server (World Ref H) H) :=
  (Turns.start s (programs key reqs)).run (Server.step (shardedBackend H)) alters schedule

/-- The replies of the requests and the value of the key are those of some sequential order. -/
def Atomic (key : Str) (reqs : List Request) (schedule : List ℕ) : Prop :=
  ∃ order : List ℕ, order.Perm (List.range reqs.length) ∧
    (∀ i r, (concurrently s key reqs schedule).threads[i]? = some (.ret r) →
      (i, r) ∈ (serial (Server.step (shardedBackend H)) (programs key reqs) order s).1) ∧
    held (concurrently s key reqs schedule).state key =
      held (serial (Server.step (shardedBackend H)) (programs key reqs) order s).2 key

/-- At every step of the schedule, no other request is in the middle of its writes; and if the step is no
read, no other request is under way. -/
def orderlySchedule (key : Str) (reqs : List Request)
    (schedule : List ℕ) : Bool :=
  (Turns.start s (programs key reqs)).orderlyRun (Server.step (shardedBackend H)) alters schedule

omit [Floats] [Spaces] [Printing] [Unicode] [Runtime] in
theorem isKeyWrite_of_isReadModifyWrite {cmd : ExtendedCommand} (h : isReadModifyWrite cmd = true) :
    isKeyWrite cmd = true := by
  cases cmd <;> first | rfl | exact absurd h Bool.false_ne_true

omit [DecidableEq H] [Hashing H] in
theorem onKey_programs {reqs : List Request} (h : ∀ r ∈ reqs, isReadModifyWrite r.1 = true)
    (key : Str) : ∀ p ∈ (programs key reqs : List (ServerProg H Outcome)), p.CallsOnly (OnKey key) := by
  intro p hp
  obtain ⟨r, hr, rfl⟩ := List.mem_map.1 hp
  exact callsOnly_runExtended
    (conforms_handleExtended (isKeyWrite_of_isReadModifyWrite (h r hr)) key r.2).callsOnly trivial

/-- **Read-modify-write commands are atomic in orderly runs**: for every state of the server and any
number of requests on one key, in every interleaving of their calls all of whose steps are orderly, the
replies and the value of the key are those of some sequential order. -/
theorem atomic_of_orderly (s : Server (World Ref H) H) (key : Str) {reqs : List Request}
    (h : ∀ r ∈ reqs, isReadModifyWrite r.1 = true) {schedule : List ℕ}
    (horderly : orderlySchedule s key reqs schedule = true)
    (hdone : (concurrently s key reqs schedule).done = true) : Atomic s key reqs schedule := by
  obtain ⟨order, hperm, hreplies, hstate⟩ := Turns.serializable_of_orderly
    (congruent_afterRead key) (quietReads_afterRead key) (onKey_programs h key) horderly hdone
  refine ⟨order, ?_, hreplies, ?_⟩
  · rwa [programs, List.length_map] at hperm
  · have hheld := congrArg (fun t => held t key) hstate
    simp only [held_afterRead] at hheld
    exact hheld

end

section Instances

open Plain

def freshServer : Server (World Ref Str) Str := .new (.init 0 0) 0

def twoIncrs : List Request := [(.counter .incr, []), (.counter .incr, [])]

def crossedIncrs : List ℕ := [0, 0, 0, 0, 1, 1, 1, 1, 0, 0, 0, 1, 1, 1]

-- one after the other
example : (concurrently freshServer (str "n") twoIncrs
    (List.replicate 7 0 ++ List.replicate 7 1)).threads.map Prog.result =
    [some (.ok (str ":1\r\n")), some (.ok (str ":2\r\n"))] := by decide +kernel

/-- Two `INCR`s of a new counter that both reply `1`, as they never would one after the other. -/
theorem crossed_incrs_not_atomic : freshServer.Reachable ∧ (∀ r ∈ twoIncrs, isReadModifyWrite r.1 = true) ∧
    (concurrently freshServer (str "n") twoIncrs crossedIncrs).done = true ∧
    (concurrently freshServer (str "n") twoIncrs crossedIncrs).threads.map Prog.result =
      [some (.ok (str ":1\r\n")), some (.ok (str ":1\r\n"))] ∧
    held (concurrently freshServer (str "n") twoIncrs crossedIncrs).state (str "n") =
      some (.eConst (.vString (str "1"))) ∧ ¬ Atomic freshServer (str "n") twoIncrs crossedIncrs := by
  have hreplies : (concurrently freshServer (str "n") twoIncrs crossedIncrs).threads.map Prog.result =
      [some (.ok (str ":1\r\n")), some (.ok (str ":1\r\n"))] := by decide +kernel
  refine ⟨Server.reachable_new 0 0, by decide, by decide +kernel, hreplies, by decide +kernel, ?_⟩
  rintro ⟨order, hperm, hres, -⟩
  have hret : ∀ i < 2, (concurrently freshServer (str "n") twoIncrs crossedIncrs).threads[i]? =
      some (.ret (.ok (str ":1\r\n"))) := by
    intro i hi
    have hget := congrArg (fun l => l[i]?) hreplies
    simp only [List.getElem?_map] at hget
    have hsome : ([some (.ok (str ":1\r\n")), some (.ok (str ":1\r\n"))] : List (Option Outcome))[i]? =
        some (some (.ok (str ":1\r\n"))) := by
      interval_cases i <;> rfl
    obtain ⟨p, hp, hr⟩ := Option.map_eq_some_iff.1 (hget.trans hsome)
    rw [hp, Prog.result_eq_some.1 hr]
  have horder : order ∈ [[0, 1], [1, 0]] := List.mem_permutations'.2 hperm
  simp only [List.mem_cons, List.not_mem_nil, or_false] at horder
  rcases horder with rfl | rfl
  · exact absurd (hres 1 _ (hret 1 (by decide))) (by decide +kernel)
  · exact absurd (hres 0 _ (hret 0 (by decide))) (by decide +kernel)

def countingServer : Server (World Ref Str) Str :=
  (freshServer.handle (shardedBackend Str) 0 [str "SET", str "n", str "5"]).2

theorem atomic_of_orderly_incr_setnx : (∀ r ∈ ([(.counter .incr, []), (.setnx, [str "7"])] : List Request),
      isReadModifyWrite r.1 = true) ∧
    orderlySchedule countingServer (str "n") [(.counter .incr, []), (.setnx, [str "7"])]
      [0, 1, 0, 0, 0, 0] = true ∧
    (concurrently countingServer (str "n") [(.counter .incr, []), (.setnx, [str "7"])]
      [0, 1, 0, 0, 0, 0]).done = true ∧
    Atomic countingServer (str "n") [(.counter .incr, []), (.setnx, [str "7"])] [0, 1, 0, 0, 0, 0] :=
  ⟨by decide, by decide +kernel, by decide +kernel,
    atomic_of_orderly countingServer (str "n") (by decide) (by decide +kernel) (by decide +kernel)⟩

end Instances

end Wavicle.Resp3

import Wavicle.Storage.Touch

/-! # What a store lists

`FrontierPaths` of `storage/frontier.go` collects the paths of all shards.

* `listed`: whether a path is to be listed; an atom is listed until its deadline, and not at that instant.
* `World.Inv.mem_frontierPaths`, `World.Inv.nodup_frontierPaths`: the listing has these paths, each once.
* `World.resident_append_ne`: an append that evicts nothing leaves the other paths alone. -/

namespace Wavicle.Storage

open Lib Wavicle.Core

variable {ι H : Type} [DecidableEq H] [Hashing H]

namespace ShardedFrontierCache

variable {f : ShardedFrontierCache ι H}

/-- `FrontierPaths` lists an atom until its deadline, and not at that instant. -/
def listed (f : ShardedFrontierCache ι H) (now : Time) (path : Str) : Bool :=
  (f.resident path).any fun a => a.expiresAt = zeroTime ∨ now < a.expiresAt

/-- The paths that shard `i` lists. -/
def shardPaths (f : ShardedFrontierCache ι H) (now : Time) (i : Fin 32) : List Str :=
  ((f.shards i).entries.entries.filter fun e => e.2.expiresAt = zeroTime ∨ now < e.2.expiresAt).map
    (·.1)

omit [DecidableEq H] [Hashing H] in
theorem mem_shardPaths {now : Time} {i : Fin 32} {p : Str} : p ∈ f.shardPaths now i ↔
    ∃ a, f.ent i p = some a ∧ (a.expiresAt = zeroTime ∨ now < a.expiresAt) := by
  unfold shardPaths
  simp only [List.mem_map, List.mem_filter, decide_eq_true_eq]
  constructor
  · rintro ⟨⟨q, a⟩, ⟨hmem, hlive⟩, rfl⟩
    exact ⟨a, GoMap.lookup_eq_some.2 hmem, hlive⟩
  · rintro ⟨a, ha, hlive⟩
    exact ⟨⟨p, a⟩, ⟨GoMap.lookup_eq_some.1 ha, hlive⟩, rfl⟩

omit [DecidableEq H] [Hashing H] in
theorem nodup_shardPaths (f : ShardedFrontierCache ι H) (now : Time) (i : Fin 32) :
    (f.shardPaths now i).Nodup :=
  List.NodupKeys.sublist List.filter_sublist (f.shards i).entries.nodupKeys

end ShardedFrontierCache

namespace World

variable {w v : World ι H}

theorem Inv.mem_frontierPaths (hw : w.Inv) {p : Str} :
    p ∈ w.cache.frontierPaths w.now ↔ w.cache.listed w.now p = true := by
  have hflat : p ∈ w.cache.frontierPaths w.now ↔ ∃ i, p ∈ w.cache.shardPaths w.now i := by
    unfold ShardedFrontierCache.frontierPaths
    rw [List.mem_flatMap]
    exact ⟨fun ⟨i, _, hi⟩ => ⟨i, hi⟩, fun ⟨i, hi⟩ => ⟨i, List.mem_finRange i, hi⟩⟩
  rw [hflat]
  simp only [ShardedFrontierCache.mem_shardPaths, ShardedFrontierCache.listed, Option.any_eq_true,
    decide_eq_true_eq]
  constructor
  · rintro ⟨i, a, ha, hlive⟩
    obtain ⟨rfl, -⟩ := hw.exact.owner i p a ha
    exact ⟨a, ha, hlive⟩
  · rintro ⟨a, ha, hlive⟩
    exact ⟨_, a, ha, hlive⟩

theorem Inv.nodup_frontierPaths (hw : w.Inv) : (w.cache.frontierPaths w.now).Nodup := by
  refine List.nodup_flatMap.2 ⟨fun i _ => ShardedFrontierCache.nodup_shardPaths .., ?_⟩
  refine (List.nodup_finRange 32).imp fun {i j} hij p hi hj => hij ?_
  obtain ⟨a, ha, -⟩ := ShardedFrontierCache.mem_shardPaths.1 hi
  obtain ⟨b, hb, -⟩ := ShardedFrontierCache.mem_shardPaths.1 hj
  rw [← (hw.exact.owner i p a ha).1, ← (hw.exact.owner j p b hb).1]

theorem perm_frontierPaths (hw : w.Inv) (hv : v.Inv)
    (h : ∀ p, w.cache.listed w.now p = v.cache.listed v.now p) :
    (w.cache.frontierPaths w.now).Perm (v.cache.frontierPaths v.now) := by
  refine (List.perm_ext_iff_of_nodup hw.nodup_frontierPaths hv.nodup_frontierPaths).2 fun p => ?_
  rw [hw.mem_frontierPaths, hv.mem_frontierPaths, h]

end World

/-! ### Reads and writes -/

namespace World

variable {w : World ι H} {path : Str} {expr : Expr ι H} {expiresAt : Time}

theorem resident_getCurrent (w : World ι H) (path : Str) :
    (w.cache.getCurrent w.now path).2.resident = w.cache.resident :=
  (ShardedFrontierCache.same_getCurrent w.cache w.now path).resident

theorem cache_append_of_not_evicts (h : w.cache.evicts w.now expr path expiresAt = false) :
    (w.append expr path expiresAt).2.cache = w.cache.inserted w.now expr path expiresAt :=
  congrArg Prod.snd (ShardedFrontierCache.appendAtom_of_not_evicts h)

theorem resident_append_ne (h : w.cache.evicts w.now expr path expiresAt = false) {p : Str}
    (hp : p ≠ path) : (w.append expr path expiresAt).2.cache.resident p = w.cache.resident p := by
  rw [cache_append_of_not_evicts h]
  rcases ShardedFrontierCache.insertAtom_spec { w.cache with clock := w.cache.clock + 1 }
    (w.mint expr path expiresAt) with ⟨-, hput, -⟩ | ⟨-, hsame, -⟩
  · exact (congrFun hput.resident p).trans (Function.update_of_ne hp _ _)
  · exact congrFun hsame.resident p

end World

end Wavicle.Storage

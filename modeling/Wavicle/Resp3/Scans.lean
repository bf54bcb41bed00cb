import Wavicle.Resp3.KeySpace

/-! # Full scans

A client goes through the keys with `SCAN`: it starts at the cursor 0 and repeats the command with the cursor of
the reply until that is 0. -/

namespace Wavicle.Resp3

open Lib Wavicle.Core Storage Prog

section

/-- In a list in strict order, the first `n` elements are those with fewer than `n` before them. -/
theorem mem_take_of_pairwise {a : Str} : ∀ {l : List Str}, l.Pairwise (· < ·) →
    ∀ n, a ∈ l.take n ↔ a ∈ l ∧ l.countP (· < a) < n
  | _, _, 0 => by simp
  | [], _, n + 1 => by simp
  | b :: l, h, n + 1 => by
    obtain ⟨hb, hl⟩ := List.pairwise_cons.1 h
    rw [List.take_succ_cons, List.mem_cons, List.mem_cons, mem_take_of_pairwise hl n, List.countP_cons]
    constructor
    · rintro (rfl | ⟨ha, hn⟩)
      · have hnone : l.countP (· < a) = 0 :=
          List.countP_eq_zero.2 fun c hc => by simpa using List.lt_asymm (hb c hc)
        simp [hnone, List.lt_irrefl]
      · refine ⟨.inr ha, ?_⟩
        rw [if_pos (decide_eq_true (hb a ha))]
        omega
    · rintro ⟨rfl | ha, hn⟩
      · exact .inl rfl
      · rw [if_pos (decide_eq_true (hb a ha))] at hn
        exact .inr ⟨ha, by omega⟩

/-- The reply of `SCAN`: a cursor and a page of keys. -/
def scanReply (next : ℕ) (keys : List Str) : Str := arrayHeader 2 ++ integerReply next ++ arrayReply keys

theorem scanReply_inj {m n : ℕ} {keys keys' : List Str} (h : scanReply m keys = scanReply n keys') :
    m = n ∧ keys = keys' := by
  unfold scanReply integerReply at h
  simp only [List.append_assoc] at h
  obtain ⟨hcursor, hkeys⟩ := decimal_line_inj (List.append_cancel_left (List.append_cancel_left h))
  exact ⟨hcursor, arrayReply_injective (List.cons.inj hkeys).2⟩

variable {H : Type} [DecidableEq H] [Hashing H] {s : Server (World Ref H) H}

/-- The key has a live path that the pattern matches: its own, or that of a field if it is a hash. -/
def Server.LiveKey (s : Server (World Ref H) H) (pat key : Str) : Prop :=
  ∃ p, (s.live p).isSome ∧ s.lists (patternPrefix pat) p = true ∧ s.listedAs p = key

variable [Floats] [Spaces] [Printing] [Unicode] [Runtime]

/-- The pattern and the count of a `SCAN`. -/
abbrev scanPattern (rest : List Str) : Str := (scanOptions rest (str "*", 100)).1

@[inherit_doc scanPattern]
abbrev scanCount (rest : List Str) : ℕ := (scanOptions rest (str "*", 100)).2

/-- A `SCAN` from a cursor up to the answer 0, with the keys of each page. -/
inductive FullScan (fuel : ℕ) (options : List Str) :
    ℕ → Server (World Ref H) H → List (List Str) → Prop where
  | last {cursor : ℕ} {s t : Server (World Ref H) H} {keys : List Str}
      (h : s.handle (shardedBackend H) fuel (str "SCAN" :: decimal cursor :: options) =
        (.ok (scanReply 0 keys), t)) : FullScan fuel options cursor s [keys]
  | more {cursor next : ℕ} {s t : Server (World Ref H) H} {keys : List Str} {pages : List (List Str)}
      (h : s.handle (shardedBackend H) fuel (str "SCAN" :: decimal cursor :: options) =
        (.ok (scanReply next keys), t)) (hnext : next ≠ 0) (hrest : FullScan fuel options next t pages) :
      FullScan fuel options cursor s (keys :: pages)

/-- `SCAN` replies with the cursor 0 and the first keys of the listing, unless the server is stale. -/
theorem handle_scan (hs : s.store.Inv) (fuel : ℕ) (rest : List Str) :
    (s.handle (shardedBackend H) fuel (str "SCAN" :: rest)).1 =
      s.stale.elim (.ok (scanReply 0 ((s.listing (scanPattern rest)).take (scanCount rest)))) failure := by
  have hfinds : Finds s (scan rest)
      (· = scanReply 0 ((s.listing (scanPattern rest)).take (scanCount rest))) :=
    (finds_matchingKeys hs _).bind fun keys hkeys => keeps_pure (by rw [hkeys]; rfl)
  unfold Server.handle
  rw [handleCommand_extended (show toUpper (str "SCAN") = str "SCAN" from rfl) rfl
    (show _ = some .scan from rfl)]
  change (Prog.run _ (unlessStale _) s).1 = _
  rw [run_unlessStale]
  cases s.stale with
  | some msg => rfl
  | none =>
    rw [Option.elim_none, run_bind]
    exact congrArg Except.ok (hfinds s (.refl s)).2

theorem fullScan_of_reply {fuel cursor : ℕ} {options keys : List Str}
    (h : (s.handle (shardedBackend H) fuel (str "SCAN" :: decimal cursor :: options)).1 =
      .ok (scanReply 0 keys)) : FullScan fuel options cursor s [keys] := .last (Prod.ext h rfl)

theorem FullScan.eq {fuel cursor : ℕ} {options : List Str} {pages : List (List Str)} (hs : s.store.Inv)
    (h : FullScan fuel options cursor s pages) : pages =
      [(s.listing (scanPattern (decimal cursor :: options))).take (scanCount (decimal cursor :: options))] := by
  have hreply := handle_scan hs fuel (decimal cursor :: options)
  cases h with
  | last h =>
    rw [h] at hreply
    cases hstale : s.stale with
    | some msg => rw [hstale] at hreply; cases hreply
    | none =>
      rw [hstale] at hreply
      rw [(scanReply_inj (Except.ok.inj hreply)).2]
  | more h hnext =>
    rw [h] at hreply
    cases hstale : s.stale with
    | some msg => rw [hstale] at hreply; cases hreply
    | none =>
      rw [hstale] at hreply
      exact absurd (scanReply_inj (Except.ok.inj hreply)).1 hnext

/-- **A full scan visits every live key** exactly if each one is listed with fewer than `COUNT` keys before
it, those of tombstones among them. -/
theorem full_scan_complete_iff (hs : s.Reachable) (fuel : ℕ) (options : List Str) :
    (s.stale = none → ∃ pages, FullScan fuel options 0 s pages) ∧ ∀ pages, FullScan fuel options 0 s pages →
      ((∀ key, s.LiveKey (scanPattern (decimal 0 :: options)) key → key ∈ pages.flatten) ↔
        ∀ key, s.LiveKey (scanPattern (decimal 0 :: options)) key →
          key ∈ s.listing (scanPattern (decimal 0 :: options)) ∧
          (s.listing (scanPattern (decimal 0 :: options))).countP (· < key) <
            scanCount (decimal 0 :: options)) := by
  refine ⟨fun hstale => ?_, fun pages hpages => ?_⟩
  · have hreply := handle_scan hs.inv fuel (decimal 0 :: options)
    rw [hstale] at hreply
    exact ⟨_, fullScan_of_reply hreply⟩
  · have hsorted : (s.listing (scanPattern (decimal 0 :: options))).Pairwise (· < ·) :=
      List.Pairwise.imp₂ (fun _ _ hle hne => Std.lt_of_le_of_ne hle hne)
        (List.pairwise_insertionSort (· ≤ ·) _) (nodup_listing s _)
    rw [hpages.eq hs.inv, List.flatten_singleton]
    simp only [mem_take_of_pairwise hsorted]

end

section Instances

open Plain

def twoKeys : Server (World Ref Str) Str :=
  ((Server.new (.init 0 0) 0).handle (shardedBackend Str) 0
    [str "MSET", str "a", str "1", str "b", str "2"]).2

theorem twoKeys_reachable : twoKeys.Reachable := (Server.reachable_new 0 0).command 0 _

/-- A scan of one key at a time ends after the first one, and a live key is not visited. -/
theorem scan_misses_key : twoKeys.Reachable ∧ FullScan 0 [str "COUNT", str "1"] 0 twoKeys [[str "a"]] ∧
    twoKeys.LiveKey (scanPattern (decimal 0 :: [str "COUNT", str "1"])) (str "b") ∧
    str "b" ∉ [[str "a"]].flatten := by
  refine ⟨twoKeys_reachable, fullScan_of_reply ?_, ⟨str "b", ?_⟩, by decide⟩
  · decide +kernel
  · decide +kernel

theorem twoKeys_live {p : Str} (h : (twoKeys.live p).isSome) : p = str "a" ∨ p = str "b" := by
  obtain ⟨a, ha⟩ := Option.isSome_iff_exists.1 h
  have hcurrent := (Option.filter_eq_some_iff.1 ha).1
  have hinv := twoKeys_reachable.inv
  have hlog : twoKeys.store.log.map (·.path) = [str "b", str "a"] := by decide +kernel
  have hmem : a.path ∈ twoKeys.store.log.map (·.path) := List.mem_map_of_mem (hinv.logged hcurrent)
  rw [hlog, hinv.pathsAgree p a hcurrent] at hmem
  simpa [or_comm] using hmem

theorem full_scan_complete_iff_two : ∃ pages, FullScan 0 [str "COUNT", str "2"] 0 twoKeys pages ∧
    ∀ key, twoKeys.LiveKey (scanPattern (decimal 0 :: [str "COUNT", str "2"])) key → key ∈ pages.flatten := by
  have hstale : twoKeys.stale = none := by decide +kernel
  obtain ⟨pages, hpages⟩ := (full_scan_complete_iff twoKeys_reachable 0 [str "COUNT", str "2"]).1 hstale
  refine ⟨pages, hpages, ((full_scan_complete_iff twoKeys_reachable 0 _).2 pages hpages).2 ?_⟩
  rintro key ⟨p, hlive, -, rfl⟩
  rcases twoKeys_live hlive with rfl | rfl <;> decide +kernel

end Instances

end Wavicle.Resp3

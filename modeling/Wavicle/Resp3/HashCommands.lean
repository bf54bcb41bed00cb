import Wavicle.Resp3.HashMaps

/-! # The commands on hashes

Each command on a hash, run on a server that represents maps, changes the maps as it is to
(`yields_next`) and replies with what they say (`yields_answers`). All of this is for runs that evict
nothing: `Yields`. -/

namespace Wavicle.Resp3

open Lib Wavicle.Core Storage Engine Prog List

section

variable {H : Type} [DecidableEq H] [Hashing H] {KH KP : Set Str} {m : Hashes}
  {s t u : Server (World Ref H) H}

def evictsNothing (s : Server (World Ref H) H) : ServerOp H → Bool
  | .store ⟨_, .appendAtom expr path _ expiresAt⟩ =>
    !s.store.cache.evicts s.store.now expr path expiresAt
  | _ => true

/-- The run of `p` from `s`, if it evicts nothing. -/
abbrev Yields {α : Type} (s : Server (World Ref H) H) (p : ServerProg H α)
    (R : α → Server (World Ref H) H → Prop) : Prop :=
  EndsIf (Server.step (shardedBackend H)) evictsNothing p s R

variable {α : Type} {Q : α → Prop} {p : ServerProg H α} {key text : Str}
  {R : Outcome → Server (World Ref H) H → Prop} {c : HashCommand}

theorem Finds.yields (h : Finds s p Q) (hs : Represents KH m s) :
    Yields s p fun a u => Q a ∧ Represents KH m u :=
  ((h.ends (.refl s)).mono fun _ _ hu => ⟨hu.1, hs.same hu.2⟩).endsIf

/-! ### Writing fields -/

theorem yields_appendAtom (hs : Represents KH m s) (hsep : Separate KH KP) (hkey : key ∈ KH)
    (field : Str) {text : Option Str} (htext : text ≠ some [0]) (parents : List H) :
    Yields s (appendAtom (writes text) (fieldPath key field) parents zeroTime) fun r u =>
      (∃ h, r = .ok h) ∧ Represents KH (m.assign key field text) u ∧
        ∀ q ≠ fieldPath key field, u.store.cache.resident q = s.store.cache.resident q := by
  refine endsIf_ask fun hok => ?_
  have hev : s.store.cache.evicts s.store.now (writes text) (fieldPath key field) zeroTime = false :=
    Bool.not_eq_eq_eq_not.1 hok
  exact ⟨⟨_, rfl⟩, hs.append_field hsep hkey field htext hev, (hs.toTexts.resident_append hev).2⟩

theorem yields_appendText (hs : Represents KH m s) (hsep : Separate KH KP) (hkey : key ∈ KH)
    (field : Str) (htext : text ≠ [0]) :
    Yields s (appendText (.eConst (.vString text)) (fieldPath key field)) fun r u =>
      (∃ h, r = .ok h) ∧ Represents KH (m.assign key field (some text)) u := by
  refine ((finds_getCurrent _).yields hs).bind fun prev u hu => ?_
  exact (yields_appendAtom hu.2 hsep hkey field (fun h => htext (Option.some.inj h)) _).mono
    fun _ _ h => ⟨h.1, h.2.1⟩

theorem yields_newText (hs : Represents KH m s) (text : Str) :
    Yields s (ServerOp.ask (.newEConst (.vString text))) fun v u =>
      v = .vString text ∧ Represents KH m u := by
  refine endsIf_ask fun _ => ⟨hs.step_newEConst text, hs.intern fun v hv => ?_⟩
  cases hv
  exact ⟨text, rfl⟩

theorem yields_putValue (hs : Represents KH m s) (hsep : Separate KH KP) (hkey : key ∈ KH)
    (field : Str) (htext : text ≠ [0]) :
    Yields s (putValue (fieldPath key field) (.vString text)) fun _ u =>
      Represents KH (m.assign key field (some text)) u := by
  refine (yields_newText hs text).bind fun v u ⟨hv, hu⟩ => ?_
  rw [hv]
  exact (yields_appendAtom hu hsep hkey field (fun h => htext (Option.some.inj h)) []).mono
    fun _ _ h => h.2.1

theorem yields_setHash (hs : Represents KH m s) (key : Str) :
    Yields s (setKeyType key .hash) fun _ u => Represents KH m u := by
  refine endsIf_ask fun _ => hs.withTypes fun k hk type htype => ?_
  rw [GoMap.lookup_insert] at htype
  split_ifs at htype
  · exact (Option.some.inj htype).symm
  · exact hs.types k hk type htype

theorem Represents.admits (hs : Represents KH m s) (hkey : key ∈ KH) : s.admits key .hash = true := by
  refine decide_eq_true ?_
  cases htype : s.typeOf key with
  | none => exact Or.inl rfl
  | some type => exact Or.inr (congrArg some (hs.typeOf hkey htype))

theorem yields_assertHash (hs : Represents KH m s) (hkey : key ∈ KH) :
    Yields s (assertKeyTypeAgain key .hash) fun r u => r = true ∧ Represents KH m u :=
  ((ends_assertKeyTypeAgain hs.inv key .hash).mono fun _ _ hu =>
    ⟨hu.1.trans (hs.admits hkey), (hs.recorded key).same hu.2⟩).endsIf

theorem yields_hset (hs : Represents KH m s) (hsep : Separate KH KP) (hkey : key ∈ KH) (field : Str)
    (htext : text ≠ [0]) : Yields s (hset [key, field, text]) fun r u =>
      r = .ok (integerReply 1) ∧ Represents KH (m.assign key field (some text)) u := by
  refine (yields_assertHash hs hkey).bind fun ok u ⟨hok, hu⟩ => ?_
  subst hok
  refine (yields_appendText hu hsep hkey field htext).bind fun r u' ⟨⟨h, hr⟩, hu'⟩ => ?_
  subst hr
  exact (yields_setHash hu' key).bind fun _ u'' hu'' => fun _ => ⟨rfl, hu''⟩

theorem yields_putHashFields (hsep : Separate KH KP) (hkey : key ∈ KH) {fields : List (Str × Str)}
    (h : ∀ p ∈ fields, p.2 ≠ [0]) (hs : Represents KH m s) :
    Yields s (putHashFields key fields) fun _ u => Represents KH (m.assignAll key fields) u := by
  induction fields generalizing m s with
  | nil => exact fun _ => hs
  | cons p fields ih =>
    refine (yields_putValue hs hsep hkey p.1 (h p (.head _))).bind fun _ u hu => ?_
    exact ih (forall_mem_cons.1 h).2 hu

theorem yields_hmset (hs : Represents KH m s) (hsep : Separate KH KP) (hkey : key ∈ KH)
    (first : Str × Str) (more : List (Str × Str)) (h : ∀ p ∈ first :: more, p.2 ≠ [0]) :
    Yields s (hmset (key :: (first :: more).flatMap fun p => [p.1, p.2])) fun r u =>
      r = okReply ∧ Represents KH (m.assignAll key (first :: more)) u := by
  unfold hmset
  dsimp only
  rw [pairs_flatMap]
  refine (yields_assertHash hs hkey).bind fun ok u ⟨hok, hu⟩ => ?_
  subst hok
  refine (yields_putHashFields hsep hkey h hu).bind fun _ u' hu' => ?_
  exact (yields_setHash hu' key).bind fun _ u'' hu'' => fun _ => ⟨rfl, hu''⟩

/-! ### Removing fields -/

theorem Hashes.assign_self {field : Str} {text : Option Str} (h : m key field = text) :
    m.assign key field text = m := by
  funext k f
  unfold Hashes.assign
  split_ifs with heq
  · rw [heq.1, heq.2, h]
  · rfl

theorem yields_deleteFields (hsep : Separate KH KP) (hkey : key ∈ KH) {fields : List Str}
    (hfound : ∀ f ∈ fields, (s.store.current (fieldPath key f)).isSome = (m key f).isSome)
    (honce : (fields.filter fun f => (m key f).isSome).Nodup) (hs : Represents KH m s) :
    Yields s (deleteFields key fields) fun r u =>
      r = m.removed key fields ∧ Represents KH (m.removeAll key fields) u := by
  induction fields generalizing m s with
  | nil => exact fun _ => ⟨rfl, hs⟩
  | cons f fields ih =>
    refine ((finds_getCurrent _).ends (.refl s)).endsIf.bind fun prev u ⟨hprev, hsame⟩ => ?_
    have hu := hs.same hsame
    have hhead := hfound f (.head _)
    rw [← hprev] at hhead
    unfold Hashes.removed Hashes.removeAll
    cases prev with
    | none =>
      have hnone : m key f = none := Option.isNone_iff_eq_none.1 (by rw [← Option.not_isSome, ← hhead]; rfl)
      rw [Hashes.assign_self hnone, hnone]
      refine ih (fun f' hf' => ?_) ?_ hu
      · rw [hsame.current]
        exact hfound f' (.tail _ hf')
      · rwa [filter_cons_of_neg (by rw [hnone]; simp)] at honce
    | some prev =>
      have hsome : (m key f).isSome = true := hhead.symm
      have hcut : (f :: fields).filter (fun f => (m key f).isSome) =
          f :: fields.filter fun f => (m key f).isSome := filter_cons_of_pos hsome
      rw [hcut, nodup_cons] at honce
      -- the field does not come again
      have hne : ∀ f' ∈ fields, f' ≠ f := by
        rintro f' hf' rfl
        exact honce.1 (mem_filter.2 ⟨hf', hsome⟩)
      have hother : ∀ f' ∈ fields, (m.assign key f none) key f' = m key f' := fun f' hf' =>
        if_neg fun heq => hne f' hf' heq.2
      rw [if_pos hsome]
      refine (yields_appendAtom hu hsep hkey f (show none ≠ some [0] by simp) []).bind
        fun _ u' ⟨_, hu', hothers⟩ => ?_
      refine (ih (fun f' hf' => ?_) ?_ hu').bind fun r u'' ⟨hr, hu''⟩ => fun _ => ⟨?_, hu''⟩
      · have hpath : fieldPath key f' ≠ fieldPath key f := fun h =>
          hne f' hf' (hsep.fieldPath_inj hkey hkey h).2
        rw [hother f' hf', hu'.toTexts.current, hothers _ hpath, hsame.resident, ← hs.toTexts.current]
        exact hfound f' (.tail _ hf')
      · rw [filter_congr fun f' hf' => by rw [hother f' hf']]
        exact honce.2
      · rw [hr]
        rfl

theorem finds_anyLive : ∀ paths : List Str, Finds s (anyLive paths) fun _ => True
  | [] => keeps_pure trivial
  | p :: paths => by
    refine (finds_curValue p).bind fun v _ => ?_
    cases v with
    | some _ => exact keeps_pure trivial
    | none => exact finds_anyLive paths

theorem yields_delKeyType (hs : Represents KH m s) (key : Str) :
    Yields s (delKeyType key) fun _ u => Represents KH m u := by
  refine endsIf_ask fun _ => hs.withTypes fun k hk type htype => ?_
  rw [GoMap.lookup_erase] at htype
  split_ifs at htype
  exact hs.types k hk type htype

theorem yields_dropEmptyHash (hs : Represents KH m s) (key : Str) :
    Yields s (dropEmptyHash key) fun _ u => Represents KH m u := by
  refine (ends_keyTypeOf hs.inv (.refl s) key).endsIf.bind fun type u ⟨_, hsame⟩ => ?_
  have hu := (hs.recorded key).same hsame
  split_ifs
  · refine ((finds_frontierPaths hu.inv).yields hu).bind fun paths u' ⟨_, hu'⟩ => ?_
    refine ((finds_anyLive _).yields hu').bind fun remain u'' ⟨_, hu''⟩ => ?_
    cases remain with
    | true => exact fun _ => hu''
    | false => exact yields_delKeyType hu'' key
  · exact fun _ => hu

/-- `HDEL` counts the fields that it finds, tombstones among them: here are none. -/
structure Undeleted (s : Server (World Ref H) H) (key : Str) (fields : List Str) : Prop where
  noTombstone : ∀ f ∈ fields, ∀ a, s.store.current (fieldPath key f) = some a → isTombstone a = false
  once : (fields.filter fun f => (s.live (fieldPath key f)).isSome).Nodup

theorem yields_hdel (hs : Represents KH m s) (hsep : Separate KH KP) (hkey : key ∈ KH) (field : Str)
    (more : List Str) (h : Undeleted s key (field :: more)) :
    Yields s (hdel (key :: field :: more)) fun r u => r = integerReply (m.removed key (field :: more) : ℕ) ∧
        Represents KH (m.removeAll key (field :: more)) u := by
  have hlive : ∀ f, (s.live (fieldPath key f)).isSome = (m key f).isSome := fun f => by
    rw [hs.toTexts.isSome_live, hs.fields key hkey]
  have hfound : ∀ f ∈ field :: more,
      (s.store.current (fieldPath key f)).isSome = (m key f).isSome := by
    intro f hf
    rw [← hlive f]
    unfold Server.live
    cases hcur : s.store.current (fieldPath key f) with
    | none => rfl
    | some a => simp [h.noTombstone f hf a hcur]
  have honce := h.once
  simp only [hlive] at honce
  refine (yields_deleteFields hsep hkey hfound honce hs).bind fun r u ⟨hr, hu⟩ => ?_
  subst hr
  exact (yields_dropEmptyHash hu key).bind fun _ u' hu' => fun _ => ⟨rfl, hu'⟩

/-! ### Reading fields -/

variable [Floats]

theorem Texts.bind_value (hs : Texts s) (p : Str) : (s.value p).bind toText = s.textAt p := by
  rw [hs.value_eq]
  cases s.textAt p <;> rfl

theorem finds_hashReplies (hs : Texts s) (key : Str) : ∀ fields : List Str,
    Finds s (hashReplies key fields)
      (· = fields.flatMap fun f => fieldReply (s.textAt (fieldPath key f)))
  | [] => keeps_pure rfl
  | f :: fields => by
    refine (finds_curValue _).bind fun v hv => (finds_hashReplies hs key fields).bind fun replies hreplies =>
      keeps_pure ?_
    rw [hv, hs.bind_value, hreplies]
    rfl

section

omit [Floats]

theorem trimPrefix_fieldPath (key f : Str) : trimPrefix (fieldPath key f) (key ++ str ":") = f := by
  unfold trimPrefix
  rw [if_pos (hasPrefix_fieldPath key f)]
  exact drop_left

theorem exists_fieldPath {p : Str} (h : hasPrefix p (key ++ str ":") = true) :
    ∃ f, p = fieldPath key f := by
  obtain ⟨f, rfl⟩ := isPrefixOf_iff_prefix.1 h
  exact ⟨f, rfl⟩

theorem fieldPath_right_inj {f f' : Str} (h : fieldPath key f = fieldPath key f') : f = f' :=
  append_cancel_left h

end

theorem finds_gatherFields (hs : Texts s) (key : Str) : ∀ {paths : List Str},
    (∀ p ∈ paths, hasPrefix p (key ++ str ":") = true) →
    Finds s (gatherFields (key ++ str ":") paths) fun l => SortedMap.Sorted l ∧
      ∀ f, l.lookup f = if fieldPath key f ∈ paths then s.textAt (fieldPath key f) else none
  | [], _ => keeps_pure ⟨List.Pairwise.nil, fun _ => rfl⟩
  | p :: paths, h => by
    obtain ⟨f₀, rfl⟩ := exists_fieldPath (h p (.head _))
    have hrest := finds_gatherFields hs key (forall_mem_cons.1 h).2
    refine (finds_curValue _).bind fun v hv => hrest.bind fun l ⟨hsorted, hl⟩ => keeps_pure ?_
    rw [hv, hs.bind_value, trimPrefix_fieldPath]
    have hmem : ∀ f, f ≠ f₀ → (fieldPath key f ∈ fieldPath key f₀ :: paths ↔ fieldPath key f ∈ paths) := by
      intro f hf
      rw [mem_cons]
      exact or_iff_right fun heq => hf (fieldPath_right_inj heq)
    cases htext : s.textAt (fieldPath key f₀) with
    | none =>
      refine ⟨hsorted, fun f => (hl f).trans ?_⟩
      by_cases hf : f = f₀
      · subst hf
        simp [htext]
      · simp only [hmem f hf]
    | some text =>
      refine ⟨hsorted.put f₀ text, fun f => ?_⟩
      rw [Option.elim_some, SortedMap.lookup_put, hl f]
      by_cases hf : f = f₀
      · subst hf
        simp [htext]
      · simp only [hmem f hf, if_neg hf]

theorem finds_hashFields (hs : Texts s) (key : Str) : Finds s (hashFields key) fun l =>
    SortedMap.Sorted l ∧ ∀ f, l.lookup f = s.textAt (fieldPath key f) := by
  refine (finds_frontierPaths hs.inv).bind fun paths hperm => ?_
  refine (finds_gatherFields hs key fun p hp => (mem_filter.1 hp).2).mono
    fun l ⟨hsorted, hl⟩ => ⟨hsorted, fun f => (hl f).trans ?_⟩
  split_ifs with hmem
  · rfl
  · -- a path that is not listed has no text
    have hnone : s.store.cache.resident (fieldPath key f) = none := by
      by_contra hne
      refine hmem (mem_filter.2 ⟨?_, hasPrefix_fieldPath key f⟩)
      exact hperm.mem_iff.2 (hs.mem_frontierPaths.2 (Option.ne_none_iff_exists'.1 hne))
    unfold Server.textAt
    rw [hnone]
    rfl

omit [Floats] in
theorem Represents.lists (hs : Represents KH m s) (hkey : key ∈ KH) {l : List (Str × Str)}
    (hl : SortedMap.Sorted l ∧ ∀ f, l.lookup f = s.textAt (fieldPath key f)) : Lists (m key) l := by
  refine ⟨hl.1.nodup, fun f text => ?_⟩
  rw [hl.1.mem_iff, hl.2 f, hs.fields key hkey]

/-! ### Reading through the proof cache -/

variable [Spaces] [Printing] [Unicode] [Runtime]

omit [DecidableEq H] [Hashing H] [Floats] [Spaces] [Printing] [Unicode] [Runtime] in
theorem looks_onStore : ∀ {p : StoreProg Ref H α}, Reads p → (onStore p).CallsOnly Looks
  | .ret _, _ => trivial
  | .call ⟨_, .getCurrent _⟩ _, ⟨_, hk⟩ | .call ⟨_, .getAtom _⟩ _, ⟨_, hk⟩
  | .call ⟨_, .verifyVersionVector _⟩ _, ⟨_, hk⟩ | .call ⟨_, .getCurrentHash _⟩ _, ⟨_, hk⟩
  | .call ⟨_, .findChangedPaths _⟩ _, ⟨_, hk⟩ => ⟨trivial, fun r => looks_onStore (hk r)⟩

omit [DecidableEq H] [Hashing H] [Floats] [Spaces] [Printing] [Unicode] [Runtime] in
theorem looks_ask (op : ServerOp H) (h : Looks op) : (ServerOp.ask op).CallsOnly Looks := callsOnly_ask h

variable (fuel : ℕ)

omit [DecidableEq H] [Floats] [Spaces] [Unicode] [Runtime] in
theorem looks_readCached (path : Str) :
    (readCached fuel path : ServerProg H _).CallsOnly Looks := by
  refine callsOnly_bind (fun proof => ?_) (looks_ask (.getProof (queryHash path)) trivial)
  cases proof with
  | none => exact callsOnly_pure _ _
  | some proof =>
    refine callsOnly_bind (fun r => ?_) (looks_onStore (reads_reduceIncremental fuel proof))
    exact callsOnly_bind (fun _ => callsOnly_pure _ _) (looks_ask (.updateProof _ _) trivial)

omit [DecidableEq H] [Floats] [Spaces] [Unicode] [Runtime] in
theorem looks_readProof (path : Str) :
    (readProof fuel path : ServerProg H Outcome).CallsOnly Looks := by
  refine callsOnly_bind (fun r => ?_) (looks_readCached fuel path)
  rcases r with f | (_ | reply)
  · exact callsOnly_pure _ _
  · refine callsOnly_bind (fun r => ?_) (looks_onStore (reads_composeProof fuel path))
    cases r with
    | error f => exact callsOnly_pure _ _
    | ok proof => exact callsOnly_bind (fun _ => callsOnly_pure _ _) (looks_ask (.setProof _ _) trivial)
  · exact callsOnly_pure _ _

/-- The server holds what `s` holds, and its proofs are coherent. -/
abbrev SameCoherent (s t : Server (World Ref H) H) : Prop := s.Same t ∧ Coherent t

omit [Floats] [Spaces] [Printing] [Unicode] [Runtime] in
theorem Finds.coherent (h : Finds s p Q) (hp : KeepsCoherent p) :
    Keeps (shardedStep H) (SameCoherent s) p Q :=
  fun t ht => ⟨⟨(h t ht.1).1, (hp t ht.2).1⟩, (h t ht.1).2⟩

omit [Floats] [Spaces] [Unicode] [Runtime] in
theorem keeps_readProof (hs : Texts s) (hd : (s.store.log.map (·.hash)).Nodup) {path : Str}
    (hquery : ∀ p, (queryHash p : H) = queryHash path → p = path) (hpath : path ≠ [])
    (htext : s.textAt path = some text) (fuel : ℕ) :
    Keeps (shardedStep H) (SameCoherent s) (readProof (fuel + 1) path)
      (· = .ok (formatBulkString text)) := by
  intro t ht
  refine ⟨((finds_of_looks (looks_readProof _ path)).coherent
    (keepsCoherent_readProof (fuel + 1) path) t ht).1, ?_⟩
  obtain ⟨a, hres, ha⟩ := Option.bind_eq_some_iff.1 htext
  have hexpr : a.expr = .eConst (.vString text) := by
    rcases (hs.resident path a hres).2 with hnull | ⟨text', htext'⟩
    · rw [hnull] at ha
      cases ha
    · rw [htext'] at ha ⊢
      rw [Option.some.inj ha]
  have hcur : t.store.current path = some a := by
    rw [ht.1.current, hs.current]
    exact hres
  have hrun := ht.2.run_readProof (ht.1.log ▸ hd) hquery hcur hexpr fuel
  rw [hrun, Server.served, if_neg hpath]
  rfl

omit [Floats] [Spaces] [Unicode] [Runtime] in
theorem keeps_readPath (hs : Texts s) (hd : (s.store.log.map (·.hash)).Nodup) {path : Str}
    (hquery : (s.textAt path).isSome = true → ∀ p, (queryHash p : H) = queryHash path → p = path)
    (hpath : path ≠ []) (fuel : ℕ) :
    Keeps (shardedStep H) (SameCoherent s) (readPath (fuel + 1) path)
      (· = .ok (fieldReply (s.textAt path))) := by
  have hlive : Keeps (shardedStep H) (SameCoherent s) (liveAtom path)
      (· = s.live path) :=
    (finds_liveAtom path).coherent (keepsCoherent_of_tame (tame_liveAtom path))
  refine hlive.bind fun atom hatom => ?_
  have hsome := hs.isSome_live path
  rw [← hatom] at hsome
  cases htext : s.textAt path with
  | none =>
    rw [htext] at hsome
    obtain rfl : atom = none := Option.isNone_iff_eq_none.1 (by rw [← Option.not_isSome, hsome]; rfl)
    exact keeps_pure rfl
  | some text =>
    rw [htext] at hsome
    obtain ⟨a, rfl⟩ := Option.isSome_iff_exists.1 hsome
    have hlocal := hquery (by rw [htext]; rfl)
    refine (keeps_readProof hs hd hlocal hpath htext fuel).bind fun r hr => keeps_pure ?_
    rw [hr]
    rfl

omit [Floats] [Spaces] [Printing] [Unicode] [Runtime] in
theorem finds_livePaths : ∀ paths : List Str,
    Finds s (livePaths paths) (· = paths.filter fun p => (s.live p).isSome)
  | [] => keeps_pure rfl
  | p :: paths => by
    refine (finds_liveAtom p).bind fun atom hatom => (finds_livePaths paths).bind fun live hlive =>
      keeps_pure ?_
    rw [hatom, hlive, filter_cons]

omit [Floats] [Spaces] [Unicode] [Runtime] in
theorem keeps_readFields (hs : Texts s) (hd : (s.store.log.map (·.hash)).Nodup) (childPrefix : Str) (fuel : ℕ) :
    ∀ {paths : List Str}, (∀ path ∈ paths, path ≠ [] ∧ (s.textAt path).isSome = true ∧
      ∀ p, (queryHash p : H) = queryHash path → p = path) →
    Keeps (shardedStep H) (SameCoherent s) (readFields (fuel + 1) childPrefix paths)
      (· = .ok (paths.flatMap fun p =>
        formatBulkString (p.drop childPrefix.length) ++ formatBulkString ((s.textAt p).getD [])))
  | [], _ => keeps_pure rfl
  | p :: paths, h => by
    obtain ⟨hne, hsome, hquery⟩ := h p (.head _)
    obtain ⟨text, htext⟩ := Option.isSome_iff_exists.1 hsome
    refine (keeps_readProof hs hd hquery hne htext fuel).bind fun r hr => ?_
    subst hr
    refine (keeps_readFields hs hd childPrefix fuel fun q hq =>
      h q (.tail _ hq)).bind fun replies hreplies => keeps_pure ?_
    rw [hreplies, flatMap_cons, htext]
    rfl

omit [Floats] [Spaces] [Printing] [Unicode] [Runtime] in
theorem arrayReply_flatMap (l : List (Str × Str)) : arrayReply (l.flatMap fun e => [e.1, e.2]) =
      arrayHeader (l.length * 2) ++ l.flatMap fun e => formatBulkString e.1 ++ formatBulkString e.2 := by
  have hlen : (l.flatMap fun e => [e.1, e.2]).length = l.length * 2 := by
    induction l with
    | nil => rfl
    | cons e l ih =>
      rw [flatMap_cons, length_append, ih]
      simp only [length_cons, length_nil]
      omega
  unfold arrayReply
  rw [hlen, flatMap_assoc]
  simp

omit [Floats] [Spaces] [Printing] [Unicode] [Runtime] in
theorem Represents.lists_live (hs : Represents KH m s) (hkey : key ∈ KH) {paths : List Str}
    (hperm : paths.Perm (s.store.cache.frontierPaths s.store.now)) :
    Lists (m key) (((paths.filter fun p => hasPrefix p (key ++ str ":")).filter
      fun p => (s.live p).isSome).map fun p => (p.drop (key ++ str ":").length, (s.textAt p).getD [])) := by
  have hdrop : ∀ f, (fieldPath key f).drop (key ++ str ":").length = f := fun f => drop_left
  constructor
  · rw [map_map]
    refine (((hperm.nodup_iff.2 hs.inv.nodup_frontierPaths).filter _).filter _).map_on ?_
    intro p hp q hq heq
    obtain ⟨f, rfl⟩ := exists_fieldPath (mem_filter.1 (mem_filter.1 hp).1).2
    obtain ⟨f', rfl⟩ := exists_fieldPath (mem_filter.1 (mem_filter.1 hq).1).2
    simp only [Function.comp_apply, hdrop] at heq
    rw [heq]
  · intro f text
    simp only [mem_map, mem_filter, Prod.mk.injEq]
    constructor
    · rintro ⟨p, ⟨⟨-, hpre⟩, hlive⟩, hf, htext⟩
      obtain ⟨f', rfl⟩ := exists_fieldPath hpre
      rw [hdrop] at hf
      subst hf
      rw [hs.toTexts.isSome_live] at hlive
      obtain ⟨text', htext'⟩ := Option.isSome_iff_exists.1 hlive
      rw [htext', Option.getD_some] at htext
      rw [← hs.fields key hkey, htext', htext]
    · intro hfield
      have htext := (hs.fields key hkey f).trans hfield
      obtain ⟨a, hres, -⟩ := Option.bind_eq_some_iff.1 htext
      refine ⟨fieldPath key f, ⟨⟨?_, hasPrefix_fieldPath key f⟩, ?_⟩, hdrop f, ?_⟩
      · exact hperm.mem_iff.2 (hs.mem_frontierPaths.2 ⟨a, hres⟩)
      · rw [hs.toTexts.isSome_live, htext]
        rfl
      · rw [htext, Option.getD_some]

/-- The query hashes of the fields that the hash `key` has are those of no other text. -/
def NoCollision (H : Type) [Hashing H] (m : Hashes) (key : Str) : Prop :=
  ∀ f, (m key f).isSome = true → ∀ p, (queryHash p : H) = queryHash (fieldPath key f) → p = fieldPath key f

omit [Floats] [Spaces] [Unicode] [Runtime] in
theorem keeps_hgetall (hs : Represents KH m s) (hkey : key ∈ KH)
    (hd : (s.store.log.map (·.hash)).Nodup) (hquery : NoCollision H m key)
    (fuel : ℕ) : Keeps (shardedStep H) (SameCoherent s) (hgetall (fuel + 1) [key])
      fun r => ∃ l, Lists (m key) l ∧ r = .ok (arrayReply (l.flatMap fun e => [e.1, e.2])) := by
  refine ((finds_frontierPaths hs.inv).coherent (keepsCoherent_of_tame tame_frontierPaths)).bind
    fun paths hperm => ?_
  refine ((finds_livePaths _).coherent (keepsCoherent_of_tame (tame_livePaths _))).bind
    fun live hlive => ?_
  have hfields : ∀ path ∈ live, path ≠ [] ∧ (s.textAt path).isSome = true ∧
      ∀ p, (queryHash p : H) = queryHash path → p = path := by
    intro p hp
    rw [hlive] at hp
    obtain ⟨hpre, hsome⟩ := mem_filter.1 hp
    obtain ⟨f, rfl⟩ := exists_fieldPath (mem_filter.1 hpre).2
    rw [hs.toTexts.isSome_live] at hsome
    exact ⟨by simp [fieldPath, str], hsome, hquery f (by rwa [← hs.fields key hkey])⟩
  refine (keeps_readFields hs.toTexts hd (key ++ str ":") fuel hfields).bind
    fun replies hreplies => keeps_pure ⟨_, hs.lists_live hkey hperm, ?_⟩
  rw [hreplies, ← hlive, arrayReply_flatMap, length_map, flatMap_map]
  rfl

/-! ### Commands -/

/-- What a command asks of the server before it: no text of one zero byte, and no field that has been
deleted. -/
def HashCommand.Fits (s : Server (World Ref H) H) : HashCommand → Prop
  | .hset _ _ text => text ≠ [0]
  | .hmset _ first more => ∀ p ∈ first :: more, p.2 ≠ [0]
  | .hdel key field more => Undeleted s key (field :: more)
  | _ => True

omit [Floats] [Spaces] [Printing] [Unicode] [Runtime] in
theorem yields_unlessStale (hs : s.stale = none) {p : ServerProg H Outcome} (hp : Yields s p R) :
    Yields s (unlessStale p) R := by
  have hask : Yields s (ServerOp.ask .staleRefused) fun msg u => msg = none ∧ u = s :=
    endsIf_ask fun _ => ⟨hs, rfl⟩
  refine hask.bind fun msg u ⟨hmsg, hu⟩ => ?_
  subst hmsg hu
  exact hp

theorem yields_runExtended (hs : s.stale = none) (cmd : ExtendedCommand) (rest : List Str)
    (hp : Yields s (handleExtended cmd rest) fun reply u => R (.ok reply) u) :
    Yields s (runExtended cmd rest) R := by
  have hrun : Yields s (handleExtended cmd rest >>= fun reply => pure (.ok reply)) R :=
    hp.bind fun _ _ h _ => h
  unfold runExtended
  dsimp only
  split_ifs
  · exact yields_unlessStale hs hrun
  · exact hrun

omit [Floats] [Spaces] [Printing] [Unicode] [Runtime] in
theorem Represents.yields_of_finds (hs : Represents KH m s) (h : Finds s p Q) :
    Yields s p fun _ u => Represents KH m u :=
  (h.yields hs).mono fun _ _ hu => hu.2

section

omit [Floats] [Spaces] [Unicode] [Runtime]

theorem finds_hget (key field : Str) : Finds s (hget fuel [key, field]) fun _ => True := by
  refine (finds_liveAtom _).bind fun atom _ => ?_
  cases atom with
  | none => exact keeps_pure trivial
  | some _ => exact (finds_of_looks (looks_readProof fuel _)).bind fun _ _ => keeps_pure trivial

theorem finds_readFields (fuel : ℕ) (childPrefix : Str) : ∀ paths : List Str,
    Finds s (readFields fuel childPrefix paths) fun _ => True
  | [] => keeps_pure trivial
  | p :: paths => by
    refine (finds_of_looks (looks_readProof fuel p)).bind fun r _ => ?_
    cases orNull r with
    | error _ => exact keeps_pure trivial
    | ok _ => exact (finds_readFields fuel childPrefix paths).bind fun _ _ => keeps_pure trivial

theorem finds_hgetall (hs : s.store.Inv) (fuel : ℕ) (key : Str) :
    Finds s (hgetall fuel [key]) fun _ => True :=
  (finds_frontierPaths hs).bind fun _ _ => (finds_livePaths _).bind fun _ _ =>
    (finds_readFields fuel _ _).bind fun _ _ => keeps_pure trivial

end

omit [Spaces] [Printing] [Unicode] [Runtime] in
theorem finds_hashRead (hs : Texts s) (key : Str) (reply : List (Str × Str) → Str) :
    Finds s (hashFields key >>= fun fields => pure (reply fields)) fun r => ∃ l, r = reply l ∧
      SortedMap.Sorted l ∧ ∀ f, l.lookup f = s.textAt (fieldPath key f) :=
  (finds_hashFields hs key).bind fun l hl => keeps_pure ⟨l, rfl, hl⟩

def HashCommand.program : HashCommand → ServerProg H Outcome
  | .hset key field text => Resp3.hset [key, field, text]
  | .hget key field => unlessStale (Resp3.hget fuel [key, field])
  | .hgetall key => unlessStale (Resp3.hgetall fuel [key])
  | .hmset key first more =>
    runExtended .hmset (key :: (first :: more).flatMap fun p => [p.1, p.2])
  | .hdel key field more => runExtended .hdel (key :: field :: more)
  | .hmget key field more => runExtended .hmget (key :: field :: more)
  | .hexists key field => runExtended .hexists [key, field]
  | .hlen key => runExtended .hlen [key]
  | .hkeys key => runExtended .hkeys [key]
  | .hvals key => runExtended .hvals [key]

theorem handleCommand_hash {name : Str} (hname : toUpper name = c.name) :
    (handleCommand fuel (name :: c.key :: c.more) : ServerProg H Outcome) = c.program fuel := by
  have hcore : ∀ {upper : Str} {cmd : CoreCommand} {rest : List Str}, toUpper name = upper →
      coreNames.lookup upper = some cmd →
      (handleCommand fuel (name :: rest) : ServerProg H Outcome) = runCore fuel cmd rest :=
    handleCommand_core
  have hext : ∀ {upper : Str} {cmd : ExtendedCommand} {rest : List Str}, toUpper name = upper →
      coreNames.lookup upper = none → extendedNames.lookup upper = some cmd →
      (handleCommand fuel (name :: rest) : ServerProg H Outcome) = runExtended cmd rest :=
    handleCommand_extended
  cases c with
  | hset => exact hcore (show _ = str "HSET" from hname) (show _ = some .hset by decide)
  | hget => exact hcore (show _ = str "HGET" from hname) (show _ = some .hget by decide)
  | hgetall => exact hcore (show _ = str "HGETALL" from hname) (show _ = some .hgetall by decide)
  | hmset => exact hext (show _ = str "HMSET" from hname) (by decide) (show _ = some .hmset by decide)
  | hdel => exact hext (show _ = str "HDEL" from hname) (by decide) (show _ = some .hdel by decide)
  | hmget => exact hext (show _ = str "HMGET" from hname) (by decide) (show _ = some .hmget by decide)
  | hexists => exact hext (show _ = str "HEXISTS" from hname) (by decide) (show _ = some .hexists by decide)
  | hlen => exact hext (show _ = str "HLEN" from hname) (by decide) (show _ = some .hlen by decide)
  | hkeys => exact hext (show _ = str "HKEYS" from hname) (by decide) (show _ = some .hkeys by decide)
  | hvals => exact hext (show _ = str "HVALS" from hname) (by decide) (show _ = some .hvals by decide)

theorem yields_next (hs : Represents KH m s) (hsep : Separate KH KP) (fuel : ℕ) (hkey : c.key ∈ KH)
    (hfits : c.Fits s) : Yields s (c.program fuel) fun _ u => Represents KH (c.next m) u := by
  cases c with
  | hset key field text => exact (yields_hset hs hsep hkey field hfits).mono fun _ _ h => h.2
  | hget key field =>
    exact yields_unlessStale hs.healthy (hs.yields_of_finds (finds_hget fuel key field))
  | hgetall key =>
    exact yields_unlessStale hs.healthy (hs.yields_of_finds (finds_hgetall hs.inv fuel key))
  | hmset key first more =>
    refine yields_runExtended hs.healthy .hmset _ ?_
    exact ((yields_hmset hs hsep hkey first more hfits).mono fun _ _ h => h.2)
  | hdel key field more =>
    refine yields_runExtended hs.healthy .hdel _ ?_
    exact ((yields_hdel hs hsep hkey field more hfits).mono fun _ _ h => h.2)
  | hmget key field more =>
    have hfinds : Finds s (hmget (key :: field :: more)) fun _ => True :=
      (finds_hashReplies hs.toTexts key (field :: more)).bind fun _ _ => keeps_pure trivial
    exact yields_runExtended hs.healthy .hmget _ (hs.yields_of_finds hfinds)
  | hexists key field =>
    exact yields_runExtended hs.healthy .hexists _ (hs.yields_of_finds (finds_hashRead hs.toTexts key _))
  | hlen key =>
    exact yields_runExtended hs.healthy .hlen _ (hs.yields_of_finds (finds_hashRead hs.toTexts key _))
  | hkeys key =>
    exact yields_runExtended hs.healthy .hkeys _ (hs.yields_of_finds (finds_hashRead hs.toTexts key _))
  | hvals key =>
    exact yields_runExtended hs.healthy .hvals _ (hs.yields_of_finds (finds_hashRead hs.toTexts key _))

theorem yields_listed (hs : Represents KH m s) (hkey : key ∈ KH) (reply : List (Str × Str) → Str)
    (cmd : ExtendedCommand) (rest : List Str)
    (hcmd : (handleExtended cmd rest : ServerProg H Str) = hashFields key >>= fun fields => pure (reply fields)) :
    Yields s (runExtended cmd rest) fun r _ => ∃ l, Lists (m key) l ∧ r = .ok (reply l) ∧
      ∀ f, l.lookup f = m key f := by
  refine yields_runExtended hs.healthy cmd rest ?_
  rw [hcmd]
  refine ((finds_hashRead hs.toTexts key reply).yields hs).mono fun r _ ⟨⟨l, hr, hl⟩, _⟩ => ?_
  exact ⟨l, hs.lists hkey hl, congrArg Except.ok hr, fun f => (hl.2 f).trans (hs.fields key hkey f)⟩

theorem yields_answers (hs : Represents KH m s) (hsep : Separate KH KP) (hc : Coherent s)
    (hd : (s.store.log.map (·.hash)).Nodup) (hquery : NoCollision H m c.key)
    (fuel : ℕ) (hkey : c.key ∈ KH) (hfits : c.Fits s) :
    Yields s (c.program (fuel + 1)) fun r _ => ∃ reply, r = .ok reply ∧ c.Answers m reply := by
  cases c with
  | hset key field text =>
    exact (yields_hset hs hsep hkey field hfits).mono fun _ _ h => ⟨_, h.1, rfl⟩
  | hget key field =>
    have hpath : fieldPath key field ≠ [] := by simp [fieldPath, str]
    have hlocal := fun hsome => hquery field (hs.fields key hkey field ▸ hsome)
    have hread := (keeps_readPath hs.toTexts hd hlocal hpath fuel).ends ⟨.refl s, hc⟩
    rw [hs.fields key hkey] at hread
    exact yields_unlessStale hs.healthy (hread.mono fun _ _ h => ⟨_, h.1, rfl⟩).endsIf
  | hgetall key =>
    have hread := (keeps_hgetall hs hkey hd hquery fuel).ends ⟨.refl s, hc⟩
    exact yields_unlessStale hs.healthy
      (hread.mono fun _ _ ⟨⟨l, hl, hr⟩, _⟩ => ⟨_, hr, l, hl, rfl⟩).endsIf
  | hmset key first more =>
    refine yields_runExtended hs.healthy .hmset _ ?_
    exact ((yields_hmset hs hsep hkey first more hfits).mono fun _ _ h => ⟨_, congrArg Except.ok h.1, rfl⟩)
  | hdel key field more =>
    refine yields_runExtended hs.healthy .hdel _ ?_
    exact ((yields_hdel hs hsep hkey field more hfits).mono fun _ _ h => ⟨_, congrArg Except.ok h.1, rfl⟩)
  | hmget key field more =>
    have hfinds : Finds s (hmget (key :: field :: more)) fun r => r =
        arrayHeader (field :: more).length ++
          (field :: more).flatMap fun f => fieldReply (s.textAt (fieldPath key f)) := by
      refine (finds_hashReplies hs.toTexts key (field :: more)).bind fun r hr => keeps_pure ?_
      rw [hr]
    refine yields_runExtended hs.healthy .hmget _ ?_
    refine (hfinds.yields hs).mono fun r _ ⟨hr, _⟩ => ?_
    simp only [hs.fields key hkey] at hr
    exact ⟨_, rfl, hr⟩
  | hexists key field =>
    refine (yields_listed hs hkey _ .hexists [key, field] rfl).mono
      fun r _ ⟨l, _, hr, hl⟩ => ⟨_, hr, ?_⟩
    rw [hl field]
    rfl
  | hlen key =>
    exact (yields_listed hs hkey _ .hlen [key] rfl).mono fun _ _ ⟨l, hl, hr, _⟩ => ⟨_, hr, l, hl, rfl⟩
  | hkeys key =>
    exact (yields_listed hs hkey _ .hkeys [key] rfl).mono fun _ _ ⟨l, hl, hr, _⟩ => ⟨_, hr, l, hl, rfl⟩
  | hvals key =>
    exact (yields_listed hs hkey _ .hvals [key] rfl).mono fun _ _ ⟨l, hl, hr, _⟩ => ⟨_, hr, l, hl, rfl⟩

end

end Wavicle.Resp3

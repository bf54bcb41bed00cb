import Wavicle.Resp3.Looking
import Wavicle.Storage.Retention

/-! # What an update does to the store

`INCR` and its kin, `APPEND` and the commands that write lists, sets, sorted sets and streams all look at their key
first and then act. What they do is decided by the state before the command, as `Server.update` says: objects that
are changed in place, and a value or a tombstone that is appended to the key without a deadline.

* `Server.update`: the update of each command, in the source's order of cases.
* `Server.updated`: the store after an update.
* `ends_update`: every command leaves the store that its update gives, up to the reads of the key before it.
* `Server.Applies.live_eq`, `resident_afterExtended`: so what is live under the key, and what is resident at all,
  after a command is a function of the state before it. -/

namespace Wavicle.Resp3

open Lib Wavicle.Core Storage Engine Prog

section

variable {H : Type} [DecidableEq H] [Hashing H] {s t u : Server (World Ref H) H} {key : Str} {α : Type}

/-! ### The limits of the cache -/

theorem Server.limited_step (hs : s.store.cache.Limited) : ∀ op : ServerOp H,
    (s.step (shardedBackend H) op).2.store.cache.Limited
  | .store c => World.limited_act hs (.call c)
  | .change c => hs.change c
  | .loadType _ | .storeType _ _ | .deleteType _ | .clearTypes | .getProof _ | .setProof _ _
  | .updateProof _ _ | .newEConst _ | .newECompose _ | .newMap | .newArray _ | .now
  | .staleRefused | .uptime => hs

/-- A server that runs keeps the books of its cache, and the cache within its limits. -/
theorem Server.Reachable.limited [Floats] [Spaces] [Printing] [Unicode] [Runtime] (h : s.Reachable) :
    s.store.cache.Limited := by
  obtain ⟨maxBytes, now, hrun⟩ := h
  induction hrun with
  | refl => exact ShardedFrontierCache.limited_new maxBytes
  | tail _ hstep ih =>
    cases hstep with
    | command fuel args =>
      exact Prog.run_preserves (I := fun s => s.store.cache.Limited) (shardedStep H)
        (fun _ op hs => Server.limited_step hs op) (handleCommand fuel args) _ ih
    | tick | health => exact ih
    | sweep => exact ih.sweepExpired _

/-! ### What is live after an append -/

/-- The live atom of a path, as the handlers see it. -/
def liveIn (w : World Ref H) (path : Str) : Option (CausalAtom Ref H) :=
  (w.current path).filter fun a => !isTombstone a

omit [DecidableEq H] in
theorem liveIn_of_resident {w v : World Ref H} {path : Str}
    (h : w.cache.resident path = v.cache.resident path) (hnow : w.now = v.now) :
    liveIn w path = liveIn v path := by
  unfold liveIn World.current ShardedFrontierCache.current
  rw [h, hnow]

/-- **What is live under the path of an append**: what was live if the atom is dropped, and else the new atom, if it
is not evicted at once, has not expired and is no tombstone. -/
theorem liveIn_append {w : World Ref H} (hw : w.Inv) (hb : w.cache.Balanced) (e : Expr Ref H) (path : Str)
    (d : Time) : liveIn (w.append e path d).2 path = if w.repeats e path d then liveIn w path
      else if w.retains e path d ∧ (d = zeroTime ∨ w.now ≤ d) ∧ e ≠ .eConst .vNull then some (w.mint e path d)
      else none := by
  have htomb : (!isTombstone (w.mint e path d)) = true ↔ e ≠ .eConst .vNull := by
    have hexpr : (w.mint e path d).expr = e := rfl
    unfold isTombstone
    split <;> simp_all
  unfold liveIn
  rw [hw.current_append_eq hb]
  by_cases hrep : w.repeats e path d = true
  · rw [if_pos hrep, if_pos hrep]
  · rw [if_neg hrep, if_neg hrep]
    by_cases hkept : w.retains e path d = true ∧ (d = zeroTime ∨ w.now ≤ d)
    · rw [if_pos hkept, Option.filter_some]
      exact if_congr (htomb.trans ⟨fun h => ⟨hkept.1, hkept.2, h⟩, fun h => h.2.2⟩) rfl rfl
    · rw [if_neg hkept, if_neg fun h => hkept ⟨h.1, h.2.1⟩]
      rfl

/-! ### Looking at a key -/

/-- From `s` to `t`, the key has at most been read and its type been noted. -/
structure Server.Looked (key : Str) (s t : Server (World Ref H) H) : Prop where
  store : t.store = s.store ∨ t.store = s.store.touched key
  interned : t.interned = s.interned
  nextRef : t.nextRef = s.nextRef

omit [DecidableEq H] in
theorem Server.Looked.refl (key : Str) (s : Server (World Ref H) H) : s.Looked key s := ⟨.inl rfl, rfl, rfl⟩

theorem Server.Looked.step (h : s.Looked key t) : ∀ {op : ServerOp H}, Peeks key op →
    s.Looked key (t.step (shardedBackend H) op).2
  | .store ⟨.given, .getCurrent path⟩, hop => by
    obtain rfl : path = key := hop
    refine ⟨.inr ?_, h.interned, h.nextRef⟩
    change t.store.touched path = s.store.touched path
    rcases h.store with hstore | hstore
    · rw [hstore]
    · rw [hstore, World.touched_touched]
  | .store ⟨.given, .frontierPaths⟩, _ | .loadType _, _ | .storeType _ _, _ | .now, _ =>
    ⟨h.store, h.interned, h.nextRef⟩

omit [DecidableEq H] in
theorem Server.Looked.now (h : s.Looked key t) : t.store.now = s.store.now := by
  rcases h.store with hstore | hstore
  · rw [hstore]
  · rw [hstore]
    rfl

theorem Server.Looked.value (h : s.Looked key t) : t.value = s.value := by
  have hcurrent : t.store.current = s.store.current := by
    rcases h.store with hstore | hstore
    · rw [hstore]
    · rw [hstore, World.current_touched]
  funext path
  unfold Server.value Server.live
  rw [hcurrent]

theorem ends_of_peeks {p : ServerProg H α} (hp : p.CallsOnly (Peeks key)) (ht : s.Looked key t)
    {R : α → Server (World Ref H) H → Prop} (h : Ends (shardedStep H) p t R) :
    Ends (shardedStep H) p t fun a u => R a u ∧ s.Looked key u := by
  have hkeeps : Keeps (Server.step (shardedBackend H)) (s.Looked key) p fun _ => True :=
    keeps_of_callsOnly (fun _ _ hu hop => hu.step hop) hp
  exact ⟨h, (hkeeps t ht).1⟩

theorem ends_curValue (ht : s.Looked key t) :
    Ends (shardedStep H) (curValue key) t fun v u => v = s.value key ∧ s.Looked key u := by
  refine (ends_of_peeks (peeks_curValue key) ht ((finds_curValue key).ends (.refl t))).mono ?_
  rintro v u ⟨⟨hv, -⟩, hu⟩
  exact ⟨hv.trans (congrFun ht.value key), hu⟩

theorem ends_guard (hs : s.store.Inv) (key : Str) (want : KeyType) :
    Ends (shardedStep H) (assertKeyType key want) s fun ok u => ok = s.admits key want ∧ s.Looked key u :=
  (ends_of_peeks (peeks_assertKeyType key want) (.refl key s) (ends_assertKeyType hs key want)).mono
    fun _ _ h => ⟨h.1.1, h.2⟩

theorem ends_guardAgain (hs : s.store.Inv) (key : Str) (want : KeyType) :
    Ends (shardedStep H) (assertKeyTypeAgain key want) s
      fun ok u => ok = s.admits key want ∧ s.Looked key u :=
  (ends_of_peeks (peeks_assertKeyTypeAgain key want) (.refl key s) (ends_assertKeyTypeAgain hs key want)).mono
    fun _ _ h => ⟨h.1.1, h.2⟩

/-- The id that an `XADD` asks for. -/
def requestedID (now : Time) (id : Str) : Option Str :=
  if id = str "*" then some (generatedID now) else (parseStreamID id).map fun _ => id

theorem ends_streamID (ht : s.Looked key t) (id : Str) : Ends (shardedStep H) (streamID id) t
    fun i u => i = requestedID s.store.now id ∧ s.Looked key u := by
  refine (ends_of_peeks (R := fun i _ => i = requestedID s.store.now id) (peeks_streamID key id) ht ?_)
  rw [← ht.now]
  unfold streamID requestedID
  split_ifs <;> rfl

/-! ### Updates -/

/-- The value of the constant that `NewEConst` returns, which is an interned one if it has the same hash. -/
def Server.constant (s : Server (World Ref H) H) (v : Value Ref) : Value Ref :=
  (s.interned.intern (.eConst v)).1.constValue.getD v

/-- The server after changes of objects. -/
def Server.changed (s : Server (World Ref H) H) (cs : List Change) : Server (World Ref H) H :=
  cs.foldl (fun s c => s.change (shardedBackend H) c) s

/-- What a command does to its key: objects that it changes in place, and then what it appends, if anything. -/
inductive Update where
  | nothing
  | put (changes : List Change) (v : Value Ref)
  | delete (changes : List Change)

def Update.changes : Update → List Change
  | .nothing => []
  | .put cs _ | .delete cs => cs

def Update.deletes : Update → Bool
  | .delete _ => true
  | _ => false

/-- What the update appends. -/
def Update.expr (s : Server (World Ref H) H) : Update → Option (Expr Ref H)
  | .nothing => none
  | .put cs v => some (.eConst ((s.changed cs).constant v))
  | .delete _ => some (.eConst .vNull)

/-- The store after an update of `key`. -/
def Server.updated (s : Server (World Ref H) H) (key : Str) (upd : Update) : World Ref H :=
  (upd.expr s).elim s.store fun e => ((s.changed upd.changes).store.append e key zeroTime).2

theorem Server.interned_changed (s : Server (World Ref H) H) (cs : List Change) :
    (s.changed cs).interned = cs.foldl (fun table c => table.change c) s.interned := by
  induction cs generalizing s with
  | nil => rfl
  | cons c cs ih => exact ih (s.change (shardedBackend H) c)

theorem Server.store_changed (s : Server (World Ref H) H) (cs : List Change) :
    (s.changed cs).store = cs.foldl (fun w c => w.change c) s.store := by
  induction cs generalizing s with
  | nil => rfl
  | cons c cs ih => exact ih (s.change (shardedBackend H) c)

/-- A read of the key before an update makes no difference. -/
theorem Server.Looked.updated (h : s.Looked key t) (upd : Update) :
    (t.updated key upd).cache.resident = (s.updated key upd).cache.resident := by
  have htouched : ∀ (cs : List Change) (w : World Ref H),
      cs.foldl (fun w c => w.change c) (w.touched key) =
        (cs.foldl (fun w c => w.change c) w).touched key := by
    intro cs
    induction cs with
    | nil => exact fun _ => rfl
    | cons c cs ih =>
      intro w
      rw [List.foldl_cons, ← World.touched_change, ih]
      rfl
  have hres : ∀ w : World Ref H, (w.touched key).cache.resident = w.cache.resident :=
    fun w => w.resident_getCurrent key
  have hexpr : upd.expr t = upd.expr s := by
    cases upd with
    | nothing | delete => rfl
    | put cs v =>
      have htable : (t.changed cs).interned = (s.changed cs).interned := by
        rw [Server.interned_changed, Server.interned_changed, h.interned]
      simp only [Update.expr, Server.constant, htable]
  unfold Server.updated
  rw [hexpr]
  rcases h.store with hstore | hstore
  · cases upd.expr s with
    | none => exact congrArg (fun w : World Ref H => w.cache.resident) hstore
    | some e =>
      rw [Option.elim_some, Option.elim_some, Server.store_changed, Server.store_changed, hstore]
  · cases upd.expr s with
    | none =>
      rw [Option.elim_none, Option.elim_none, hstore]
      exact hres s.store
    | some e =>
      rw [Option.elim_some, Option.elim_some, Server.store_changed, Server.store_changed, hstore, htouched]
      have hsame := congrArg (fun w : World Ref H => w.cache.resident)
        (World.append_touched (upd.changes.foldl (fun w c => w.change c) s.store) e key zeroTime).2
      rwa [hres, hres] at hsame

theorem Server.inv_changed (hs : s.store.Inv) (cs : List Change) : (s.changed cs).store.Inv := by
  induction cs generalizing s with
  | nil => exact hs
  | cons c cs ih => exact ih (s := s.change (shardedBackend H) c) (hs.change c)

theorem Server.limited_changed (hs : s.store.cache.Limited) (cs : List Change) :
    (s.changed cs).store.cache.Limited := by
  induction cs generalizing s with
  | nil => exact hs
  | cons c cs ih => exact ih (s := s.change (shardedBackend H) c) (hs.change c)

theorem Server.now_changed (s : Server (World Ref H) H) (cs : List Change) :
    (s.changed cs).store.now = s.store.now := by
  induction cs generalizing s with
  | nil => rfl
  | cons c cs ih => exact ih (s.change (shardedBackend H) c)

/-- A change of objects changes the live atom, and makes no tombstone. -/
theorem Server.live_changed (s : Server (World Ref H) H) (cs : List Change) (key : Str) :
    (s.changed cs).live key = (s.live key).map fun a => cs.foldl (fun a c => a.change c) a := by
  induction cs generalizing s with
  | nil => exact (congrFun Option.map_id _).symm
  | cons c cs ih =>
    have hstep : (s.change (shardedBackend H) c).live key = (s.live key).map (CausalAtom.change c) := by
      have htomb : ∀ a : CausalAtom Ref H, isTombstone (a.change c) = isTombstone a := by
        rintro ⟨hash, expr, path, parents, clock, timestamp, expiresAt⟩
        cases expr with
        | eConst v => cases v <;> rfl
        | _ => rfl
      unfold Server.live World.current ShardedFrontierCache.current
      change (((s.store.cache.change c).resident key).bind fun a =>
        if a.expired s.store.now then none else some a).filter _ = _
      rw [ShardedFrontierCache.resident_change]
      cases s.store.cache.resident key with
      | none => rfl
      | some a =>
        have hexp : (a.change c).expired s.store.now = a.expired s.store.now := rfl
        rw [Option.map_some, Option.bind_some, Option.bind_some]
        cases hpast : a.expired s.store.now with
        | true =>
          rw [if_pos (hexp.trans hpast), if_pos rfl]
          rfl
        | false =>
          rw [if_neg (by rw [hexp, hpast]; exact Bool.false_ne_true), if_neg Bool.false_ne_true, Option.filter_some,
            Option.filter_some, htomb]
          split_ifs <;> rfl
    refine (ih (s.change (shardedBackend H) c)).trans ?_
    rw [hstep, Option.map_map]
    rfl

theorem Server.now_updated (s : Server (World Ref H) H) (key : Str) (upd : Update) :
    (s.updated key upd).now = s.store.now := by
  unfold Server.updated
  cases upd.expr s with
  | none => rfl
  | some e => exact s.now_changed upd.changes

/-- From `s`, the key is looked at and then the update is made. -/
def Server.Applies (s : Server (World Ref H) H) (key : Str) (upd : Update) (t : Server (World Ref H) H) : Prop :=
  ∃ u, s.Looked key u ∧ t.store = u.updated key upd

theorem Server.Looked.applies_nothing (h : s.Looked key t) : s.Applies key .nothing t := ⟨t, h, rfl⟩

theorem Server.Applies.live {upd : Update} (h : s.Applies key upd t) :
    t.live key = liveIn (s.updated key upd) key := by
  obtain ⟨u, hu, hstore⟩ := h
  refine liveIn_of_resident ?_ ?_
  · rw [hstore, hu.updated]
  · rw [hstore, Server.now_updated, Server.now_updated, hu.now]

/-- **What is live under the key of an update**, by the state before it. -/
theorem Server.Applies.live_eq {upd : Update} {e : Expr Ref H} (h : s.Applies key upd t) (hs : s.store.Inv)
    (hl : s.store.cache.Limited) (he : upd.expr s = some e) : t.live key =
      if (s.changed upd.changes).store.repeats e key zeroTime then (s.changed upd.changes).live key
      else if (s.changed upd.changes).store.retains e key zeroTime ∧ e ≠ .eConst .vNull then
        some ((s.changed upd.changes).store.mint e key zeroTime)
      else none := by
  rw [h.live, Server.updated, he, Option.elim_some, liveIn_append (Server.inv_changed hs _)
    (Server.limited_changed hl _).balanced]
  simp only [true_or, true_and]
  rfl

theorem Server.Applies.live_of_none {upd : Update} (h : s.Applies key upd t) (he : upd.expr s = none) :
    t.live key = s.live key := by
  rw [h.live, Server.updated, he]
  rfl

/-! ### Slices and maps -/

section Objects

variable [Runtime]

/-- `append(arr, vs...)`, element by element: the elements that are set in place, the slice, and the number of the
next object. -/
def grown : ℕ → Slice → List (Value Ref) → List Change × Slice × ℕ
  | next, arr, [] => ([], arr, next)
  | next, arr, v :: vs =>
    if arr.2.length < arr.1.cap then
      let r := grown next (arr.1, arr.2 ++ [v]) vs
      (.assign arr.1.id (arr.1.offset + arr.2.length) v :: r.1, r.2)
    else grown (next + 1) (⟨next, 0, Runtime.growslice arr.1.cap (arr.2.length + 1)⟩, arr.2 ++ [v]) vs

/-- The loop of `LPUSH`, which makes one or two new arrays for each element. -/
def consed : ℕ → Slice → List Str → Slice
  | _, arr, [] => arr
  | next, arr, e :: es =>
    if arr.2 = [] then consed (next + 1) (⟨next, 0, 1⟩, [.vString e]) es
    else consed (next + 2) (⟨next + 1, 0, Runtime.growslice 1 (arr.2.length + 1)⟩, .vString e :: arr.2) es

/-- The loop of `SREM` and `ZREM`: what is deleted in place, and what is left. -/
def removals (r : Ref) : Fields → List Str → List Change × Fields
  | fields, [] => ([], fields)
  | fields, m :: ms =>
    if (fields.lookup m).isSome then
      let left := removals r (fields.filter (·.1 ≠ m)) ms
      (.delete r.id m :: left.1, left.2)
    else removals r fields ms

def pushed (side : ListEnd) (next : ℕ) (arr : Slice) (elems : List Str) : Update :=
  match side with
  | .left => .put [] (.vArray (consed next arr elems).1 (consed next arr elems).2)
  | .right =>
    let r := grown next arr (elems.map .vString)
    .put r.1 (.vArray r.2.1.1 r.2.1.2)

def shrunk (rest : Slice) : Update := if rest.2 = [] then .delete [] else .put [] (.vArray rest.1 rest.2)

def removed (r : Ref) (fields : Fields) (members : List Str) : Update :=
  let left := removals r fields members
  if left.2 = [] then .delete left.1 else .put left.1 (.vRecord r left.2)

end Objects

/-! ### Storing what is new -/

theorem Server.changed_nextRef (s : Server (World Ref H) H) (n : ℕ) (cs : List Change) :
    ({ s with nextRef := n } : Server (World Ref H) H).changed cs = { s.changed cs with nextRef := n } := by
  induction cs generalizing s with
  | nil => rfl
  | cons c cs ih => exact ih (s.change (shardedBackend H) c)

theorem run_appendElem [Runtime] (arr : Slice) (v : Value Ref) (t : Server (World Ref H) H) :
    (appendElem arr v).run (shardedStep H) t = ((grown t.nextRef arr [v]).2.1,
      { t.changed (grown t.nextRef arr [v]).1 with nextRef := (grown t.nextRef arr [v]).2.2 }) := by
  unfold appendElem grown
  split_ifs <;> rfl

theorem run_appendElems [Runtime] (t : Server (World Ref H) H) (elems : List Str) (arr : Slice) :
    (appendElems arr elems).run (shardedStep H) t = ((grown t.nextRef arr (elems.map .vString)).2.1,
      { t.changed (grown t.nextRef arr (elems.map .vString)).1 with
        nextRef := (grown t.nextRef arr (elems.map .vString)).2.2 }) := by
  induction elems generalizing t arr with
  | nil => rfl
  | cons e es ih =>
    rw [appendElems, run_bind, run_appendElem, ih, List.map_cons]
    simp only [grown]
    split_ifs with hcap
    · rfl
    · simp only [Server.changed_nextRef]
      rfl

theorem run_consElems [Runtime] (elems : List Str) (arr : Slice) (t : Server (World Ref H) H) :
    ∃ n, (consElems arr elems).run (shardedStep H) t = (consed t.nextRef arr elems, { t with nextRef := n }) := by
  induction elems generalizing t arr with
  | nil => exact ⟨t.nextRef, rfl⟩
  | cons e es ih =>
    rw [consElems, run_bind]
    unfold consElem consed
    split_ifs with hnil
    · obtain ⟨n, hn⟩ := ih (⟨t.nextRef, 0, 1⟩, [.vString e]) { t with nextRef := t.nextRef + 1 }
      exact ⟨n, hn⟩
    · obtain ⟨n, hn⟩ := ih (⟨t.nextRef + 1, 0, Runtime.growslice 1 (arr.2.length + 1)⟩, .vString e :: arr.2)
        { t with nextRef := t.nextRef + 2 }
      exact ⟨n, hn⟩

theorem ends_deleteMembers (r : Ref) (members : List Str) (m : Fields) (t : Server (World Ref H) H) :
    Ends (shardedStep H) (deleteMembers r m members) t fun x u =>
      x.1 = (removals r m members).2 ∧ u = t.changed (removals r m members).1 := by
  induction members generalizing t m with
  | nil => exact ⟨rfl, rfl⟩
  | cons member members ih =>
    unfold deleteMembers removals
    split_ifs
    · have hdelete : Ends (shardedStep H) (ServerOp.ask (.change (.delete r.id member))) t
          fun _ u => u = t.change (shardedBackend H) (.delete r.id member) := rfl
      refine hdelete.bind fun _ u hu => ?_
      subst hu
      exact (ih (m.filter (·.1 ≠ member)) _).bind fun _ _ h => h
    · exact ih m t

theorem ends_storePushed [Runtime] (hu : s.Looked key u) (side : ListEnd) (arr : Slice) (elems : List Str) :
    Ends (shardedStep H) (storePushed side key arr elems) u
      fun _ t => s.Applies key (pushed side s.nextRef arr elems) t := by
  refine ⟨u, hu, ?_⟩
  rw [← hu.nextRef, storePushed, run_bind]
  cases side with
  | left =>
    obtain ⟨n, hn⟩ := run_consElems elems arr u
    rw [pushElems, hn]
    rfl
  | right =>
    rw [pushElems, run_appendElems]
    rfl

theorem ends_storePopped [Floats] [Printing] (hu : s.Looked key u) (vs : List (Value Ref)) (rest : Slice) :
    Ends (shardedStep H) (storePopped key vs rest) u fun _ t => s.Applies key (shrunk rest) t := by
  unfold storePopped shrunk
  split_ifs
  · exact ⟨u, hu, rfl⟩
  · exact ⟨u, hu, rfl⟩

theorem ends_storeAdded (hu : s.Looked key u) (T : KeyType) (m entries : Fields) :
    Ends (shardedStep H) (storeAdded key T m entries) u
      fun _ t => s.Applies key (.put [] (.vRecord (.map s.nextRef) (putFields m entries).2)) t := by
  rw [← hu.nextRef]
  exact ⟨u, hu, rfl⟩

theorem ends_storeRemoved (hu : s.Looked key u) (r : Ref) (m : Fields) (members : List Str) :
    Ends (shardedStep H) (storeRemoved key r m members) u
      fun _ t => s.Applies key (removed r m members) t := by
  unfold storeRemoved removed
  refine (ends_deleteMembers r members m u).bind fun x v ⟨hx, hv⟩ => ?_
  obtain ⟨left, n⟩ := x
  obtain rfl : left = (removals r m members).2 := hx
  subst hv
  dsimp only
  split_ifs
  · exact ⟨u, hu, rfl⟩
  · exact ⟨u, hu, rfl⟩

theorem ends_storeStream [Runtime] (hu : s.Looked key u) (id : Str) (arr : Slice) (fields : List (Str × Str)) :
    let r := grown (s.nextRef + 1) arr [.vRecord (.map s.nextRef) (streamEntry id fields)]
    Ends (shardedStep H) (storeEntry key id arr fields) u
      fun _ t => s.Applies key (.put r.1 (.vArray r.2.1.1 r.2.1.2)) t := by
  intro r
  refine ⟨u, hu, ?_⟩
  have hmap : shardedStep H u .newMap = (.map u.nextRef, { u with nextRef := u.nextRef + 1 }) := rfl
  rw [storeEntry, ServerOp.ask, run_bind, run_ask, hmap, run_bind, run_appendElem]
  simp only [Server.changed_nextRef, hu.nextRef]
  rfl

variable {upd : Update} {want : KeyType} {refused : Str} {p : Option (Option (Value Ref)) → ServerProg H Str}

/-- A command that reads its key does what it does with the value of the key. -/
theorem ends_reading (ht : s.Looked key t)
    (hp : ∀ u, s.Looked key u → Ends (shardedStep H) (p (s.value key)) u fun _ t => s.Applies key upd t) :
    Ends (shardedStep H) (curValue key >>= p) t fun _ t => s.Applies key upd t := by
  refine (ends_curValue ht).bind fun v u ⟨hv, hu⟩ => ?_
  subst hv
  exact hp u hu

/-- So does a command that asks for the type of the key first, if it is admitted. -/
theorem ends_guarded (hs : s.store.Inv)
    (hp : ∀ u, s.Looked key u → Ends (shardedStep H) (p (s.value key)) u fun _ t => s.Applies key upd t) :
    Ends (shardedStep H) (do if ← assertKeyType key want then curValue key >>= p else pure refused) s
      fun _ t => s.Applies key (if s.admits key want then upd else .nothing) t := by
  refine (ends_guard hs key want).bind fun ok t ⟨hok, ht⟩ => ?_
  subst hok
  split_ifs
  · exact ends_reading ht hp
  · exact ends_pure ht.applies_nothing

/-! ### The update of each command -/

variable [Floats] [Spaces]

/-- The number that a key holds, which is 0 where there is nothing. -/
def Server.number (s : Server (World Ref H) H) (key : Str) : Option Int64 :=
  match s.value key with
  | none => some 0
  | some v => (toText v).bind fun text => parseInt (trimSpace text)

def Server.slice (s : Server (World Ref H) H) (key : Str) : Option Slice :=
  match s.value key with
  | none => some (.nil, [])
  | some v => asArray v

/-- The fields that `SADD` and `ZADD` copy. -/
def Server.fields (s : Server (World Ref H) H) (read : Option (Value Ref) → Option (Ref × Fields)) (key : Str) :
    Option Fields :=
  match s.value key with
  | none => some []
  | some v => (read v).map (·.2)

variable [Runtime]

/-- **What a command on `key` does**, with the arguments `rest` after the key. -/
def Server.update (s : Server (World Ref H) H) (key : Str) : ExtendedCommand → List Str → Update
  | .counter c, rest =>
    match c.delta rest with
    | none => .nothing
    | some delta =>
      if s.admits key .string then
        (s.number key).elim .nothing fun cur => .put [] (.vString (formatInt (cur + delta)))
      else .nothing
  | .append, text :: _ =>
    if s.admits key .string then
      match s.value key with
      | none => .put [] (.vString text)
      | some v => (toText v).elim .nothing fun cur => .put [] (.vString (cur ++ text))
    else .nothing
  | .push side, elem :: elems =>
    if s.admits key .list then
      (s.slice key).elim .nothing fun arr => pushed side s.nextRef arr (elem :: elems)
    else .nothing
  | .pop side, rest =>
    if s.admits key .list then
      match popCount rest, (s.value key).bind asArray with
      | some count, some arr =>
        if arr.2 = [] then .nothing else shrunk (popped arr (min count arr.2.length) side).2
      | _, _ => .nothing
    else .nothing
  | .sadd, member :: members =>
    if s.admits key .set then
      (s.fields asSet key).elim .nothing fun m => .put [] (.vRecord (.map s.nextRef)
        (putFields m ((member :: members).map fun m => (m, .vInt 1))).2)
    else .nothing
  | .srem, member :: members =>
    if s.admits key .set then
      ((s.value key).bind asSet).elim .nothing fun m => removed m.1 m.2 (member :: members)
    else .nothing
  | .zadd, rest =>
    match pairs rest with
    | none => .nothing
    | some args =>
      if s.admits key .zset then
        (s.fields asZSetOrEmpty key).elim .nothing fun m => (scores args).elim .nothing fun entries =>
          .put [] (.vRecord (.map s.nextRef) (putFields m entries).2)
      else .nothing
  | .zrem, member :: members =>
    ((s.value key).bind asZSet).elim .nothing fun m => removed m.1 m.2 (member :: members)
  | .xadd, id :: rest =>
    match pairs rest, requestedID s.store.now id with
    | some fields, some id =>
      if s.admits key .stream then
        (s.slice key).elim .nothing fun arr =>
          let r := grown (s.nextRef + 1) arr [.vRecord (.map s.nextRef) (streamEntry id fields)]
          .put r.1 (.vArray r.2.1.1 r.2.1.2)
      else .nothing
    | _, _ => .nothing
  | _, _ => .nothing

/-! ### Every command does its update -/

theorem ends_counterUpdate (hs : s.store.Inv) (key : Str) (c : Counter) (rest : List Str) :
    Ends (shardedStep H) (counter c (key :: rest)) s
      fun _ t => s.Applies key (s.update key (.counter c) rest) t := by
  unfold counter Server.update
  dsimp only
  cases c.delta rest with
  | none => exact ends_pure (Server.Looked.refl key s).applies_nothing
  | some delta =>
    refine ends_guarded hs fun u hu => ?_
    unfold Server.number
    cases s.value key with
    | none => exact ⟨u, hu, rfl⟩
    | some v =>
      dsimp only
      cases toText v with
      | none => exact ends_pure hu.applies_nothing
      | some text =>
        rw [Option.bind_some]
        dsimp only
        cases parseInt (trimSpace text) with
        | none => exact ends_pure hu.applies_nothing
        | some cur => exact ⟨u, hu, rfl⟩

theorem ends_appendUpdate (hs : s.store.Inv) (rest : List Str) : Ends (shardedStep H) (append (key :: rest)) s
    fun _ t => s.Applies key (s.update key .append rest) t := by
  cases rest with
  | nil => exact ends_pure (Server.Looked.refl key s).applies_nothing
  | cons text rest =>
    refine ends_guarded hs fun u hu => ?_
    cases s.value key with
    | none => exact ⟨u, hu, rfl⟩
    | some v =>
      dsimp only
      cases toText v with
      | none => exact ends_pure hu.applies_nothing
      | some cur => exact ⟨u, hu, rfl⟩

theorem ends_pushUpdate (hs : s.store.Inv) (side : ListEnd) (rest : List Str) :
    Ends (shardedStep H) (push side (key :: rest)) s
      fun _ t => s.Applies key (s.update key (.push side) rest) t := by
  cases rest with
  | nil => exact ends_pure (Server.Looked.refl key s).applies_nothing
  | cons elem elems =>
    refine ends_guarded hs fun u hu => ?_
    unfold Server.slice
    cases s.value key with
    | none => exact ends_storePushed hu side _ _
    | some v =>
      dsimp only
      cases asArray v with
      | none => exact ends_pure hu.applies_nothing
      | some arr => exact ends_storePushed hu side arr _

theorem ends_popUpdate [Printing] (hs : s.store.Inv) (side : ListEnd) (rest : List Str) :
    Ends (shardedStep H) (pop side (key :: rest)) s
      fun _ t => s.Applies key (s.update key (.pop side) rest) t := by
  unfold pop Server.update
  dsimp only
  refine (ends_guard hs key .list).bind fun ok t ⟨hok, ht⟩ => ?_
  subst hok
  split_ifs
  · cases popCount rest with
    | none => exact ends_pure ht.applies_nothing
    | some count =>
      refine ends_reading ht fun u hu => ?_
      cases s.value key with
      | none => exact ends_pure hu.applies_nothing
      | some v =>
        rw [Option.bind_some]
        dsimp only
        cases asArray v with
        | none => exact ends_pure hu.applies_nothing
        | some arr =>
          dsimp only
          split_ifs
          · exact ends_pure hu.applies_nothing
          · exact ends_storePopped hu _ _
  · exact ends_pure ht.applies_nothing

theorem ends_saddUpdate (hs : s.store.Inv) (rest : List Str) : Ends (shardedStep H) (sadd (key :: rest)) s
    fun _ t => s.Applies key (s.update key .sadd rest) t := by
  cases rest with
  | nil => exact ends_pure (Server.Looked.refl key s).applies_nothing
  | cons member members =>
    refine ends_guarded hs fun u hu => ?_
    unfold Server.fields
    cases s.value key with
    | none => exact ends_storeAdded hu .set _ _
    | some v =>
      dsimp only
      cases asSet v with
      | none => exact ends_pure hu.applies_nothing
      | some m => exact ends_storeAdded hu .set _ _

theorem ends_sremUpdate (hs : s.store.Inv) (rest : List Str) : Ends (shardedStep H) (srem (key :: rest)) s
    fun _ t => s.Applies key (s.update key .srem rest) t := by
  cases rest with
  | nil => exact ends_pure (Server.Looked.refl key s).applies_nothing
  | cons member members =>
    refine ends_guarded hs fun u hu => ?_
    cases s.value key with
    | none => exact ends_pure hu.applies_nothing
    | some v =>
      rw [Option.bind_some]
      dsimp only
      cases asSet v with
      | none => exact ends_pure hu.applies_nothing
      | some m => exact ends_storeRemoved hu m.1 m.2 _

theorem ends_zaddUpdate (hs : s.store.Inv) (rest : List Str) : Ends (shardedStep H) (zadd (key :: rest)) s
    fun _ t => s.Applies key (s.update key .zadd rest) t := by
  have hstore : ∀ u m args, s.Looked key u → Ends (shardedStep H) (storeScores key m args) u fun _ t =>
      s.Applies key ((scores args).elim .nothing fun entries =>
        .put [] (.vRecord (.map s.nextRef) (putFields m entries).2)) t := by
    intro u m args hu
    unfold storeScores
    cases scores args with
    | none => exact ends_pure hu.applies_nothing
    | some entries => exact ends_storeAdded hu .zset m entries
  unfold zadd Server.update
  dsimp only
  cases pairs rest with
  | none => exact ends_pure (Server.Looked.refl key s).applies_nothing
  | some args =>
    refine (ends_guardAgain hs key .zset).bind fun ok t ⟨hok, ht⟩ => ?_
    subst hok
    dsimp only
    split_ifs
    · refine ends_reading ht fun u hu => ?_
      unfold Server.fields
      cases s.value key with
      | none => exact hstore u _ args hu
      | some v =>
        dsimp only
        cases asZSetOrEmpty v with
        | none => exact ends_pure hu.applies_nothing
        | some m => exact hstore u _ args hu
    · exact ends_pure ht.applies_nothing

theorem ends_zremUpdate (rest : List Str) : Ends (shardedStep H) (zrem (key :: rest)) s
    fun _ t => s.Applies key (s.update key .zrem rest) t := by
  cases rest with
  | nil => exact ends_pure (Server.Looked.refl key s).applies_nothing
  | cons member members =>
    refine ends_reading (.refl key s) fun u hu => ?_
    unfold Server.update
    dsimp only
    cases s.value key with
    | none => exact ends_pure hu.applies_nothing
    | some v =>
      rw [Option.bind_some]
      dsimp only
      cases asZSet v with
      | none => exact ends_pure hu.applies_nothing
      | some m => exact ends_storeRemoved hu m.1 m.2 _

theorem ends_xaddUpdate (hs : s.store.Inv) (key : Str) (rest : List Str) :
    Ends (shardedStep H) (xadd (key :: rest)) s fun _ t => s.Applies key (s.update key .xadd rest) t := by
  cases rest with
  | nil => exact ends_pure (Server.Looked.refl key s).applies_nothing
  | cons id rest =>
    unfold xadd Server.update
    dsimp only
    cases pairs rest with
    | none => exact ends_pure (Server.Looked.refl key s).applies_nothing
    | some fields =>
      refine (ends_guard hs key .stream).bind fun ok t ⟨hok, ht⟩ => ?_
      subst hok
      cases hadmits : s.admits key .stream with
      | false =>
        refine ends_pure ?_
        cases requestedID s.store.now id <;> exact ht.applies_nothing
      | true =>
        refine (ends_streamID ht id).bind fun i u ⟨hi, hu⟩ => ?_
        rw [← hi]
        cases i with
        | none => exact ends_pure hu.applies_nothing
        | some i =>
          refine ends_reading hu fun v hv => ?_
          unfold Server.slice
          simp only [if_true]
          cases s.value key with
          | none => exact ends_storeStream hv i _ fields
          | some w =>
            dsimp only
            cases asArray w with
            | none => exact ends_pure hv.applies_nothing
            | some arr => exact ends_storeStream hv i arr fields

variable [Printing] [Unicode]

/-- **Every update command does its update**, after it has looked at its key. -/
theorem ends_update (hs : s.store.Inv) {cmd : ExtendedCommand} (h : isUpdate cmd = true) (rest : List Str) :
    Ends (shardedStep H) (handleExtended cmd (key :: rest)) s
      fun _ t => s.Applies key (s.update key cmd rest) t := by
  cases cmd
  case counter c => exact ends_counterUpdate hs key c rest
  case append => exact ends_appendUpdate hs rest
  case push side => exact ends_pushUpdate hs side rest
  case pop side => exact ends_popUpdate hs side rest
  case sadd => exact ends_saddUpdate hs rest
  case srem => exact ends_sremUpdate hs rest
  case zadd => exact ends_zaddUpdate hs rest
  case zrem => exact ends_zremUpdate rest
  case xadd => exact ends_xaddUpdate hs key rest
  all_goals cases h

/-! ### After a command -/

/-- The server after an extended command. -/
def afterExtended (s : Server (World Ref H) H) (cmd : ExtendedCommand) (args : List Str) :
    Server (World Ref H) H :=
  ((runExtended cmd args).run (Server.step (shardedBackend H)) s).2

/-- What an update command does: nothing if it is a read too, as the pops are, and the server is stale. -/
def Server.effect (s : Server (World Ref H) H) (key : Str) (cmd : ExtendedCommand) (rest : List Str) : Update :=
  if isExtendedRead cmd ∧ s.stale ≠ none then .nothing else s.update key cmd rest

theorem applies_afterExtended (hs : s.store.Inv) {cmd : ExtendedCommand} (h : isUpdate cmd = true)
    (key : Str) (rest : List Str) :
    s.Applies key (s.effect key cmd rest) (afterExtended s cmd (key :: rest)) := by
  have hplain : Ends (shardedStep H) (do
      let reply ← handleExtended cmd (key :: rest)
      pure (.ok reply) : ServerProg H Outcome) s fun _ t => s.Applies key (s.update key cmd rest) t :=
    (ends_update hs h rest).bind fun _ _ ht => ends_pure ht
  unfold afterExtended runExtended Server.effect
  dsimp only
  by_cases hread : isExtendedRead cmd = true
  · rw [if_pos hread, run_unlessStale]
    cases hstale : s.stale with
    | none =>
      rw [if_neg (by simp)]
      exact hplain
    | some msg =>
      rw [if_pos ⟨hread, Option.some_ne_none msg⟩]
      exact (Server.Looked.refl key s).applies_nothing
  · rw [if_neg hread, if_neg fun h => hread h.1]
    exact hplain

/-- **What is resident after an update**, as a function of the state before it. -/
theorem resident_afterExtended (hs : s.store.Inv) {cmd : ExtendedCommand} (h : isUpdate cmd = true)
    (key : Str) (rest : List Str) : (afterExtended s cmd (key :: rest)).store.cache.resident =
      (s.updated key (s.effect key cmd rest)).cache.resident := by
  obtain ⟨u, hu, hstore⟩ := applies_afterExtended hs h key rest
  rw [← hu.updated, hstore]

end

end Wavicle.Resp3

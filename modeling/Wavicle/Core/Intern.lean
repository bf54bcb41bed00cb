import Wavicle.Core.Types

/-! # Interning

`core/intern.go`: expressions are shared through a global table, by their structural hash and a comparison.
Constants are compared by their serialized bytes, so a constant may be replaced by another one that has the
same bytes; `Alike` is what is left of an expression. -/

namespace Wavicle.Core

open Lib

variable {ι H : Type}

def Value.fastHash (H : Type) [Hashing H] : Value ι → UInt64
  | .vNull => 0
  | .vBool b => if b then 1 else 2
  | .vInt n => n.toUInt64
  | .vFloat bits => bits
  | .vString s => Hashing.xxhash H s
  | .vBytes b => Hashing.xxhash H b
  | .vArray _ elems => Hashing.xxhash H (hashElems elems)
  | .vRecord _ fields => Hashing.xxhash H (hashFields fields)
where
  hashElems : List (Value ι) → Str
    | [] => []
    | v :: vs => bigEndian 8 (v.fastHash H).toNat ++ hashElems vs
  hashFields : List (Str × Value ι) → Str
    | [] => []
    | (k, v) :: fs => k ++ bigEndian 8 (v.fastHash H).toNat ++ hashFields fs

/-- What `exprEqual` compares; a subexpression is represented by the number it was interned under. -/
inductive InternKey (H : Type) where
  | const (bytes : Str)
  | fieldAccess (field : Str) (source : ℕ)
  | embed (modelVersion : UInt16) (vector : Embedding)
  | compose (atoms : List H)
  | apply (func arg : ℕ)
  | resonate (queries : List Embedding)
  deriving DecidableEq

/-- An interned expression, with its structural hash and its number. -/
structure InternEntry (ι H : Type) where
  hash : UInt64
  key : InternKey H
  id : ℕ
  expr : Expr ι H

abbrev InternTable (ι H : Type) := List (InternEntry ι H)

namespace InternTable

variable [DecidableEq H] [Hashing H]

def find (t : InternTable ι H) (hash : UInt64) (key : InternKey H) : Option (InternEntry ι H) :=
  t.find? fun entry => entry.hash = hash ∧ entry.key = key

def idOf (t : InternTable ι H) (k : UInt64 × InternKey H) : ℕ :=
  ((t.find k.1 k.2).map (·.id)).getD 0

/-- `structuralHash`, and the data for `exprEqual`. -/
def keys (t : InternTable ι H) : Expr ι H → UInt64 × InternKey H
  | .eConst value =>
    (Hashing.xxhash H (0 :: bigEndian 8 (value.fastHash H).toNat), .const value.serialize)
  | .eFieldAccess field source =>
    let id := t.idOf (t.keys source)
    (Hashing.xxhash H (1 :: (field ++ bigEndian 8 id)), .fieldAccess field id)
  | .eEmbed modelVersion vector =>
    (Hashing.xxhash H (2 :: (bigEndian 2 modelVersion.toNat ++ bigEndian 4 (vector.get 0).toNat)),
      .embed modelVersion vector)
  | .eCompose atoms => (Hashing.xxhash H (3 :: atoms.flatMap Hashing.bytes), .compose atoms)
  | .eApply func arg =>
    let f := t.idOf (t.keys func)
    let a := t.idOf (t.keys arg)
    (Hashing.xxhash H (4 :: (bigEndian 8 f ++ bigEndian 8 a)), .apply f a)
  | .eResonate queries =>
    (Hashing.xxhash H (5 :: bigEndian 4 queries.length), .resonate queries)

/-- `InternExpr`. An expression that is in the table finds itself there. -/
def intern (t : InternTable ι H) (e : Expr ι H) : Expr ι H × InternTable ι H :=
  match t.find (t.keys e).1 (t.keys e).2 with
  | some entry => (entry.expr, t)
  | none => (e, t ++ [⟨(t.keys e).1, (t.keys e).2, t.length + 1, e⟩])

end InternTable

/-! ### What interning preserves -/

/-- `e'` stands for `e`: a constant with the same bytes, or the same composite. -/
structure Alike (e e' : Expr ι H) : Prop where
  const : ∀ v, e = .eConst v → ∃ u, e' = .eConst u ∧ u.serialize = v.serialize
  compose : ∀ hs, e = .eCompose hs → e' = .eCompose hs

theorem Alike.refl (e : Expr ι H) : Alike e e := ⟨fun v h => ⟨v, h, rfl⟩, fun _ h => h⟩

/-- The expression has the given key, as far as constants and composites are concerned. -/
def InternKey.Fits : InternKey H → Expr ι H → Prop
  | .const bytes, e => ∃ v, e = .eConst v ∧ v.serialize = bytes
  | .compose atoms, e => e = .eCompose atoms
  | _, _ => True

namespace InternTable

variable [DecidableEq H] [Hashing H]

/-- Every expression is one for the key under which it is found. -/
def Sound (t : InternTable ι H) : Prop := ∀ entry ∈ t, entry.key.Fits entry.expr

theorem fits_keys (t : InternTable ι H) (e : Expr ι H) : (t.keys e).2.Fits e := by
  cases e with
  | eConst v => exact ⟨v, rfl, rfl⟩
  | eCompose hs => exact rfl
  | _ => exact trivial

theorem alike_of_fits (t : InternTable ι H) {e e' : Expr ι H} (h : (t.keys e).2.Fits e') : Alike e e' := by
  constructor
  · rintro v rfl
    exact h
  · rintro hs rfl
    exact h

theorem Sound.intern {t : InternTable ι H} (ht : t.Sound) (e : Expr ι H) :
    Alike e (t.intern e).1 ∧ (t.intern e).2.Sound := by
  unfold InternTable.intern
  cases hfind : t.find (t.keys e).1 (t.keys e).2 with
  | some entry =>
    have hmem := List.mem_of_find?_eq_some hfind
    have hkey := List.find?_some hfind
    simp only [decide_eq_true_eq] at hkey
    have hfits := ht entry hmem
    rw [hkey.2] at hfits
    exact ⟨alike_of_fits t hfits, ht⟩
  | none =>
    refine ⟨Alike.refl e, fun entry hentry => ?_⟩
    rcases List.mem_append.1 hentry with hold | hnew
    · exact ht entry hold
    · obtain rfl := List.mem_singleton.1 hnew
      exact fits_keys t e

end InternTable

end Wavicle.Core

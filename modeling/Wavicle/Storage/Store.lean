import Wavicle.Core.Types
import Wavicle.Lib.Prog
import Wavicle.Lib.GoMap

/-! # The store interface

The methods of `storage.Store` as the operations of a service. A `WriteThroughStore` has a local store inside and the
engine addresses sometimes the one, sometimes the other, which a call says by its `Via`. -/

namespace Wavicle.Storage

open Lib Wavicle.Core

abbrev VersionVector (H : Type) := GoMap Str H

/-- The methods of `Store` that are called in this repository. -/
inductive StoreOp (ι H : Type) where
  | appendAtom (expr : Expr ι H) (path : Str) (parents : List H) (expiresAt : Time)
  | getCurrent (path : Str)
  | getAtom (hash : H)
  | frontierPaths
  | verifyVersionVector (entries : VersionVector H)
  | getCurrentHash (path : Str)
  | findChangedPaths (entries : VersionVector H)

variable {ι H : Type}

/-- What a method returns; an absent result is `none`, the error of `AppendAtom` its text. -/
abbrev StoreOp.Res : StoreOp ι H → Type
  | .appendAtom _ _ _ _ => Except Str H
  | .getCurrent _ => Option (CausalAtom ι H)
  | .getAtom _ => Option (CausalAtom ι H)
  | .frontierPaths => List Str
  | .verifyVersionVector _ => Bool
  | .getCurrentHash _ => Option H
  | .findChangedPaths _ => List Str

/-- A call goes to the store as given, or to the local store inside. -/
inductive Via where
  | given
  | inner

/-- An operation, and the store that it goes to. -/
structure StoreCall (ι H : Type) where
  via : Via
  op : StoreOp ι H

abbrev StoreProg (ι H α : Type) := Prog (fun c : StoreCall ι H => c.op.Res) α

/-! ### Views

A reader of a store sees the current atom of each path, and the atom of a hash. -/

/-- What a store shows: the current atom of each path, and the atoms that hashes lead to. -/
structure View (ι H : Type) where
  current : Str → Option (CausalAtom ι H)
  atom : H → Option (CausalAtom ι H)

namespace View

def currentHash (V : View ι H) (path : Str) : Option H := (V.current path).map (·.hash)

/-- The current atom of a path is one of the path. -/
def PathsAgree (V : View ι H) : Prop := ∀ p a, V.current p = some a → a.path = p

variable [DecidableEq H]

def changed (V : View ι H) (e : Σ _ : Str, H) : Bool := V.currentHash e.1 ≠ some e.2

theorem changed_eq_false_iff {V : View ι H} {p : Str} {h : H} :
    V.changed ⟨p, h⟩ = false ↔ ∃ a, V.current p = some a ∧ a.hash = h := by
  simp [changed, currentHash]

/-- How a store with this view answers a read. Appends and listings are not reads of a view; the
answers given to them are of no use. -/
def answer (V : View ι H) (c : StoreCall ι H) : c.op.Res :=
  match c with
  | ⟨_, .appendAtom _ _ _ _⟩ => .error []
  | ⟨_, .getCurrent path⟩ => V.current path
  | ⟨_, .getAtom hash⟩ => V.atom hash
  | ⟨_, .frontierPaths⟩ => []
  | ⟨_, .verifyVersionVector entries⟩ => entries.entries.all fun e => !V.changed e
  | ⟨_, .getCurrentHash path⟩ => V.currentHash path
  | ⟨_, .findChangedPaths entries⟩ => (entries.entries.filter V.changed).map (·.1)

section

variable (V : View ι H) (via : Via)

@[simp] theorem answer_getCurrent (path : Str) :
    V.answer ⟨via, .getCurrent path⟩ = V.current path := rfl

@[simp] theorem answer_getAtom (hash : H) : V.answer ⟨via, .getAtom hash⟩ = V.atom hash := rfl

@[simp] theorem answer_getCurrentHash (path : Str) :
    V.answer ⟨via, .getCurrentHash path⟩ = V.currentHash path := rfl

@[simp] theorem answer_verifyVersionVector (entries : VersionVector H) :
    V.answer ⟨via, .verifyVersionVector entries⟩ = entries.entries.all fun e => !V.changed e := rfl

@[simp] theorem answer_findChangedPaths (entries : VersionVector H) :
    V.answer ⟨via, .findChangedPaths entries⟩ = (entries.entries.filter V.changed).map (·.1) := rfl

end

end View

def StoreCall.IsRead : StoreCall ι H → Prop
  | ⟨_, .appendAtom _ _ _ _⟩ => False
  | ⟨_, .frontierPaths⟩ => False
  | _ => True

/-- In the states with `I` the store shows the view `view`, and reading changes nothing of it. -/
structure Shows [DecidableEq H] {σ : Type} (call : σ → (c : StoreCall ι H) → c.op.Res × σ)
    (I : σ → Prop) (view : σ → View ι H) : Prop where
  answer : ∀ s c, I s → c.IsRead → (call s c).1 = (view s).answer c
  frame : ∀ s c, I s → c.IsRead → view (call s c).2 = view s
  keeps : ∀ s c, I s → c.IsRead → I (call s c).2

theorem Shows.run [DecidableEq H] {σ α : Type} {call : σ → (c : StoreCall ι H) → c.op.Res × σ}
    {I : σ → Prop} {view : σ → View ι H} (h : Shows call I view) {p : StoreProg ι H α}
    (hp : p.CallsOnly StoreCall.IsRead) {s : σ} (hs : I s) :
    (p.run call s).1 = p.eval (view s).answer ∧ view (p.run call s).2 = view s ∧ I (p.run call s).2 :=
  Prog.run_eq_eval call
    (fun s c hs hc => ⟨h.answer s c hs hc, h.frame s c hs hc, h.keeps s c hs hc⟩) p s hs hp

end Wavicle.Storage

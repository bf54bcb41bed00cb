import Mathlib

/-! # Levels of a Merkle tree

`level node l` joins neighbours by `node`, and an odd last element is handed on as it is. If `node` is injective,
so is `level node` on lists of one length. -/

namespace Wavicle.Lib.Merkle

variable {α : Type} (node : α → α → α)

def level : List α → List α
  | a :: b :: rest => node a b :: level rest
  | l => l

theorem length_level : ∀ l : List α, (level node l).length = (l.length + 1) / 2
  | [] => by simp [level]
  | [_] => by simp [level]
  | a :: b :: rest => by
    have ih := length_level rest
    simp only [level, List.length_cons, ih]
    omega

theorem length_level_lt (a b : α) (rest : List α) :
    (level node (a :: b :: rest)).length < (a :: b :: rest).length := by
  have hlength := length_level node (a :: b :: rest)
  simp only [List.length_cons] at hlength ⊢
  omega

theorem level_ne_nil {l : List α} (h : l ≠ []) : level node l ≠ [] := by
  rcases l with _ | ⟨a, _ | ⟨b, rest⟩⟩
  · exact absurd rfl h
  · exact h
  · exact List.cons_ne_nil _ _

variable {node} (hnode : ∀ a b c d, node a b = node c d → a = c ∧ b = d)
include hnode

theorem level_injective : ∀ {l l' : List α}, l.length = l'.length → level node l = level node l' → l = l'
  | [], [], _, _ => rfl
  | [_], [_], _, h => h
  | a :: b :: rest, c :: d :: rest', hlength, h => by
    obtain ⟨hfirst, hrest⟩ := List.cons.inj h
    obtain ⟨rfl, rfl⟩ := hnode a b c d hfirst
    have hlength' : rest.length = rest'.length := by simpa using hlength
    rw [level_injective hlength' hrest]
  | [], _ :: _, hlength, _ | [_], [], hlength, _ | [_], _ :: _ :: _, hlength, _ | _ :: _ :: _, [], hlength, _
  | _ :: _ :: _, [_], hlength, _ => by simp at hlength

end Wavicle.Lib.Merkle

import Wavicle.Lib.Decimal
import Wavicle.Lib.GoMap
import Wavicle.Lib.Search

/-! # The hash ring

`cluster/hashring.go`. Each node has a number of vnodes, which are places on the ring: the hash of the node's
name and a number. A key belongs to the node of the first vnode at or after the hash of the key, clockwise. -/

namespace Wavicle.Cluster

open Lib

/-- The ring: `keys` are the hashes of all virtual nodes in order, and `nodes` says whose they are. -/
structure HashRing where
  replicas : ℕ
  keys : List UInt64
  nodes : GoMap UInt64 Str

/-- The loop of `itoa`, with room for some more digits in front of `b`. -/
def itoaLoop : ℕ → ℕ → Str → Str
  | 0, _, b => b
  | room + 1, i, b => if i = 0 then b else itoaLoop room (i / 10) ((48 + i % 10).toUInt8 :: b)

def itoa (i : ℕ) : Str := if i = 0 then str "0" else itoaLoop 20 i []

/-- What is hashed for the vnode `i` of a node. -/
def label (node : Str) (i : ℕ) : Str := node ++ str "#vn#" ++ itoa i

namespace HashRing

/-- `NewHashRing`. -/
def new (replicas : Int64) : HashRing :=
  ⟨if replicas ≤ 0 then 128 else replicas.toInt.toNat, [], ∅⟩

variable (xxhash : Str → UInt64)

/-- The place of a vnode on the ring. -/
def vnode (node : Str) (i : ℕ) : UInt64 := xxhash (label node i)

/-- One round of the loop of `Add`. -/
def addVnode (node : Str) (h : HashRing) (i : ℕ) : HashRing :=
  { h with
    keys := h.keys ++ [vnode xxhash node i]
    nodes := h.nodes.insert (vnode xxhash node i) node }

variable (h : HashRing)

def add (node : Str) : HashRing :=
  let h := (List.range h.replicas).foldl (addVnode xxhash node) h
  { h with keys := h.keys.insertionSort (· ≤ ·) }

/-- The loop of `Remove`: the places that are kept, and the map. -/
def removeLoop (node : Str) : List UInt64 → GoMap UInt64 Str → List UInt64 × GoMap UInt64 Str
  | [], nodes => ([], nodes)
  | k :: keys, nodes =>
    if (nodes.lookup k).getD [] ≠ node then
      let (keep, nodes) := removeLoop node keys nodes
      (k :: keep, nodes)
    else removeLoop node keys (nodes.erase k)

def remove (node : Str) : HashRing :=
  let (keep, nodes) := removeLoop node h.keys h.nodes
  { h with keys := keep, nodes := nodes }

/-- `Get`: the first place at or after the hash of the key, or the first place of all. -/
def get (key : Str) : Str :=
  if h.keys = [] then []
  else
    let k := xxhash key
    let i := search h.keys.length fun i => (h.keys[i]?).any (k ≤ ·)
    let i := if i = h.keys.length then 0 else i
    ((h.keys[i]?).bind h.nodes.lookup).getD []

/-- A change of the ring. -/
inductive Call where
  | add (node : Str)
  | remove (node : Str)

def Call.node : Call → Str
  | .add node | .remove node => node

def step : Call → HashRing
  | .add node => h.add xxhash node
  | .remove node => h.remove node

def run (calls : List Call) : HashRing := calls.foldl (step xxhash) h

end HashRing

/-! ### Labels -/

theorem itoaLoop_eq : ∀ {room i : ℕ}, i < 10 ^ room → ∀ b : Str,
    itoaLoop room i b = (if i = 0 then [] else decimal i) ++ b
  | 0, i, hi, b => by
    have : i = 0 := by omega
    simp [itoaLoop, this]
  | room + 1, i, hi, b => by
    rw [itoaLoop]
    split_ifs with h0
    · rfl
    · rw [itoaLoop_eq (by omega), decimal_eq i]
      by_cases hlt : i < 10
      · have h10 : i / 10 = 0 := by omega
        rw [if_pos h10, if_pos hlt]
        rfl
      · have h10 : i / 10 ≠ 0 := by omega
        rw [if_neg h10, if_neg hlt, List.append_assoc]
        rfl

theorem itoa_eq {i : ℕ} (hi : i < 10 ^ 20) : itoa i = decimal i := by
  unfold itoa
  split_ifs with h0
  · subst h0
    decide
  · rw [itoaLoop_eq hi, if_neg h0, List.append_nil]

theorem label_inj {x y : Str} {i j : ℕ} (hi : i < 10 ^ 20) (hj : j < 10 ^ 20)
    (h : label x i = label y j) : x = y ∧ i = j := by
  have hsplit : ∀ (z : Str) (n : ℕ), n < 10 ^ 20 →
      (label z n).reverse.takeWhile isDigit = (decimal n).reverse := by
    intro z n hn
    have hall : ∀ b ∈ (decimal n).reverse, isDigit b = true := fun b hb =>
      isDigit_of_mem_decimal b (List.mem_reverse.1 hb)
    rw [label, itoa_eq hn, List.reverse_append, List.takeWhile_append_of_pos hall, List.reverse_append]
    simp [str, isDigit]
  have hdigits : decimal i = decimal j := by
    have hboth := hsplit x i hi
    rw [h, hsplit y j hj] at hboth
    exact (List.reverse_inj.1 hboth).symm
  have hnum := decimal_injective hdigits
  subst hnum
  exact ⟨List.append_cancel_right (List.append_cancel_right h), rfl⟩

/-! ### The first place clockwise -/

/-- The way from `k` to `v` on the ring. -/
def clockwise (k v : UInt64) : ℕ := (v - k).toNat

theorem clockwise_of_le {k v : UInt64} (h : k ≤ v) : clockwise k v = v.toNat - k.toNat :=
  UInt64.toNat_sub_of_le _ _ h

theorem clockwise_of_lt {k v : UInt64} (h : v < k) : clockwise k v = 2 ^ 64 - k.toNat + v.toNat := by
  have hlt : v.toNat < k.toNat := UInt64.lt_iff_toNat_lt.1 h
  have hk : k.toNat < 2 ^ 64 := k.toNat_lt
  unfold clockwise
  rw [UInt64.toNat_sub]
  exact Nat.mod_eq_of_lt (by omega)

theorem eq_of_clockwise_eq_zero {k v : UInt64} (h : clockwise k v = 0) : v = k := by
  refine UInt64.toNat_inj.1 ?_
  have hk := k.toNat_lt
  by_cases hle : k ≤ v
  · have := UInt64.le_iff_toNat_le.1 hle
    rw [clockwise_of_le hle] at h
    omega
  · rw [clockwise_of_lt (UInt64.not_le.1 hle)] at h
    omega

/-- In a sorted list, the first place from `k` on, or else the first one of all, is the next one
clockwise. -/
theorem clockwise_le {l : List UInt64} (hl : l.Pairwise (· ≤ ·)) {k v : UInt64}
    (h : (l.find? (k ≤ ·)).or l.head? = some v) : v ∈ l ∧ ∀ w ∈ l, clockwise k v ≤ clockwise k w := by
  cases hfind : l.find? (k ≤ ·) with
  | some u =>
    rw [hfind, Option.some_or] at h
    obtain rfl := Option.some.inj h
    obtain ⟨hku, before, after, rfl, hbefore⟩ := List.find?_eq_some_iff_append.1 hfind
    have hku : k ≤ u := of_decide_eq_true hku
    refine ⟨List.mem_of_find?_eq_some hfind, fun w hw => ?_⟩
    by_cases hkw : k ≤ w
    · have huw : u ≤ w := by
        rcases List.mem_append.1 hw with hw | hw
        · have := hbefore w hw
          simp [hkw] at this
        · rcases List.mem_cons.1 hw with rfl | hw
          · exact UInt64.le_refl _
          · exact (List.pairwise_cons.1 (List.pairwise_append.1 hl).2.1).1 w hw
      rw [clockwise_of_le hku, clockwise_of_le hkw]
      have := UInt64.le_iff_toNat_le.1 huw
      omega
    · rw [clockwise_of_le hku, clockwise_of_lt (UInt64.not_le.1 hkw)]
      have := u.toNat_lt
      have := k.toNat_lt
      omega
  | none =>
    rw [hfind, Option.none_or] at h
    have hlow : ∀ w ∈ l, w < k := fun w hw => by
      have := List.find?_eq_none.1 hfind w hw
      exact UInt64.not_le.1 (by simpa using this)
    cases l with
    | nil => cases h
    | cons u l =>
      obtain rfl := Option.some.inj h
      refine ⟨List.mem_cons_self, fun w hw => ?_⟩
      have huw : u ≤ w := by
        rcases List.mem_cons.1 hw with rfl | hw
        · exact UInt64.le_refl _
        · exact (List.pairwise_cons.1 hl).1 w hw
      rw [clockwise_of_lt (hlow u (.head _)), clockwise_of_lt (hlow w hw)]
      have := UInt64.le_iff_toNat_le.1 huw
      omega

namespace HashRing

theorem get_eq {xxhash : Str → UInt64} {h : HashRing} (hsorted : h.keys.Pairwise (· ≤ ·)) (key : Str) :
    h.get xxhash key = (((h.keys.find? (xxhash key ≤ ·)).or h.keys.head?).bind h.nodes.lookup).getD [] := by
  unfold get
  split_ifs with hnil
  · rw [hnil]
    rfl
  · have hmono : h.keys.Pairwise fun a b =>
        decide (xxhash key ≤ a) = true → decide (xxhash key ≤ b) = true :=
      hsorted.imp fun hab ha => decide_eq_true (UInt64.le_trans (of_decide_eq_true ha) hab)
    have hfind := getElem?_search hmono
    dsimp only
    split_ifs with hend
    · rw [hend, List.getElem?_eq_none le_rfl] at hfind
      rw [← hfind, Option.none_or, List.head?_eq_getElem?]
    · have hle : search h.keys.length (fun i => (h.keys[i]?).any (xxhash key ≤ ·)) ≤ h.keys.length :=
        search_le
      rw [List.getElem?_eq_getElem (lt_of_le_of_ne hle hend)] at hfind ⊢
      rw [← hfind, Option.some_or]

end HashRing

end Wavicle.Cluster

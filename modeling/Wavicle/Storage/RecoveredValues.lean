import Wavicle.Storage.RecordTrip

/-! # Values after a restart

The expressions of the log go through the intern table, which was empty at first. -/

namespace Wavicle.Storage

open Lib Wavicle.Core

/-! ### The intern table of a restarted process -/

/-- A string or the tombstone. -/
def IsText {ι : Type} (v : Value ι) : Prop := v = .vNull ∨ ∃ s, v = .vString s

/-- The structural hashes of a tombstone and of the string of one zero byte are different: their other data, the
serialized bytes, are the same. -/
def TellsNull (H : Type) [Hashing H] : Prop :=
  Hashing.xxhash H (0 :: bigEndian 8 (Hashing.xxhash H [0]).toNat) ≠ Hashing.xxhash H (0 :: bigEndian 8 0)

namespace RecordTexts

variable {ι H : Type} [DecidableEq H] [Hashing H] (T : RecordTexts ι H)

def internLine (t : InternTable ι H) (data : Str) : InternTable ι H :=
  match T.unmarshalJSON data with
  | .ok a => (t.intern a.expr).2
  | .error _ => t

/-- The table of a process that has decoded some lines since it was started. -/
def recoveredTable (lines : List Str) : InternTable ι H := lines.foldl T.internLine []

end RecordTexts

/-- An entry for a string, a tombstone or a composite, under its own key. -/
inductive TextEntry {ι H : Type} [Hashing H] (entry : InternEntry ι H) : Prop where
  | const (v : Value ι) (hv : IsText v) (hexpr : entry.expr = .eConst v)
      (hhash : entry.hash = Hashing.xxhash H (0 :: bigEndian 8 (v.fastHash H).toNat))
      (hkey : entry.key = .const v.serialize)
  | compose (hs : List H) (hkey : entry.key = .compose hs)

/-- The table of a process that has decoded texts only. -/
def KeyedTexts {ι H : Type} [Hashing H] (t : InternTable ι H) : Prop := ∀ entry ∈ t, TextEntry entry

section Interning

variable {ι H : Type} [DecidableEq H] [Hashing H] {t : InternTable ι H}

def TextExpr (e : Expr ι H) : Prop := (∃ v, e = .eConst v ∧ IsText v) ∨ ∃ hs, e = .eCompose hs

theorem KeyedTexts.intern (ht : KeyedTexts t) {e : Expr ι H} (he : TextExpr e) : KeyedTexts (t.intern e).2 := by
  unfold InternTable.intern
  cases hfind : t.find (t.keys e).1 (t.keys e).2 with
  | some entry => exact ht
  | none =>
    intro entry hentry
    rcases List.mem_append.1 hentry with hold | hnew
    · exact ht entry hold
    · obtain rfl := List.mem_singleton.1 hnew
      rcases he with ⟨v, rfl, hv⟩ | ⟨hs, rfl⟩
      · exact .const v hv rfl rfl rfl
      · exact .compose hs rfl

omit [DecidableEq H] in
theorem eq_of_isText (hnull : TellsNull H) {v w : Value ι} (hv : IsText v) (hw : IsText w)
    (hbytes : v.serialize = w.serialize) (hhash : Hashing.xxhash H (0 :: bigEndian 8 (v.fastHash H).toNat) =
      Hashing.xxhash H (0 :: bigEndian 8 (w.fastHash H).toNat)) : v = w := by
  rcases hv with rfl | ⟨s, rfl⟩ <;> rcases hw with rfl | ⟨s', rfl⟩
  · rfl
  · have hs' : ([0] : Str) = s' := hbytes
    subst hs'
    exact absurd hhash.symm hnull
  · have hs : s = ([0] : Str) := hbytes
    subst hs
    exact absurd hhash hnull
  · exact congrArg _ hbytes

theorem KeyedTexts.intern_const (ht : KeyedTexts t) (hnull : TellsNull H) {v : Value ι} (hv : IsText v) :
    (t.intern (.eConst v)).1 = .eConst v := by
  unfold InternTable.intern
  cases hfind : t.find (t.keys (.eConst v)).1 (t.keys (.eConst v)).2 with
  | none => rfl
  | some entry =>
    have hfound := List.find?_some hfind
    simp only [decide_eq_true_eq] at hfound
    cases ht entry (List.mem_of_find?_eq_some hfind) with
    | const w hw hexpr hhash hkey =>
      have hbytes : w.serialize = v.serialize := InternKey.const.inj (hkey.symm.trans hfound.2)
      have heq := eq_of_isText hnull hw hv hbytes (hhash.symm.trans hfound.1)
      exact hexpr.trans (congrArg _ heq)
    | compose hs hkey => cases hkey.symm.trans hfound.2

end Interning

namespace RecordTexts

variable {ι H : Type} [DecidableEq H] [Hashing H] {T : RecordTexts ι H}

/-! ### Decoded expressions -/

theorem isText_stringValue (j : Option Json) : IsText (stringValue j : Value ι) := by
  unfold stringValue
  split
  · exact .inr ⟨_, rfl⟩
  · exact .inl rfl

omit [DecidableEq H] [Hashing H] in
theorem textExpr_of_decodeExpr {j : Json} {e : Expr ι H} (h : T.decodeExpr j = .ok e) : TextExpr e := by
  unfold decodeExpr at h
  split at h
  · obtain rfl := Except.ok.inj h
    exact .inr ⟨_, rfl⟩
  · split at h
    · cases h
    · split at h
      · rename_i v hv
        obtain rfl := Except.ok.inj h
        obtain ⟨ms, -, hms⟩ := Option.bind_eq_some_iff.1 hv
        split_ifs at hms
        obtain rfl := Option.some.inj hms
        exact .inl ⟨_, rfl, isText_stringValue _⟩
      · cases h

omit [DecidableEq H] [Hashing H] in
theorem textExpr_of_unmarshalJSON {data : Str} {a : CausalAtom ι H} (h : T.unmarshalJSON data = .ok a) :
    TextExpr a.expr := by
  unfold unmarshalJSON at h
  split at h
  · unfold decodeRecord at h
    split at h
    · cases h
    · split at h
      · cases h
      · rename_i j hj
        cases hexpr : T.decodeExpr j with
        | error _ =>
          rw [hexpr] at h
          cases h
        | ok e =>
          rw [hexpr] at h
          obtain rfl := Except.ok.inj h
          exact textExpr_of_decodeExpr hexpr
  · cases h
  · cases h

theorem keyedTexts_recoveredTable (lines : List Str) : KeyedTexts (T.recoveredTable lines) := by
  induction lines using List.reverseRecOn with
  | nil => exact fun _ hentry => absurd hentry List.not_mem_nil
  | append_singleton lines data ih =>
    unfold recoveredTable at ih ⊢
    rw [List.foldl_append, List.foldl_cons, List.foldl_nil, internLine]
    split
    · rename_i a ha
      exact ih.intern (textExpr_of_unmarshalJSON ha)
    · exact ih

/-! ### Values -/

theorem isText_returnedValue (v : Value ι) : IsText (returnedValue v) := by
  cases v with
  | vString s => exact .inr ⟨_, rfl⟩
  | vBytes b => exact .inr ⟨_, rfl⟩
  | _ => exact .inl rfl

theorem returnedValue_eq_self_iff {v : Value ι} :
    returnedValue v = v ↔ v = .vNull ∨ ∃ s, v = .vString s ∧ validString s = true := by
  cases v with
  | vString s => simp [returnedValue, coerceUtf8_eq_self_iff]
  | _ => simp [returnedValue]

/-- **What a restart does to values.** Behind any lines, the record of a constant is decoded to the same
expression exactly if the constant is a tombstone or a string that is UTF-8. -/
theorem value_returns_iff (hT : T.Lawful) (hnull : TellsNull H) (earlier : List Str) {a : CausalAtom ι H}
    {v : Value ι} (hv : a.expr = .eConst v) {data : Str} (hdata : T.marshal a = .ok data) :
    (∃ b, T.unmarshalJSON data = .ok b ∧ ((T.recoveredTable earlier).intern b.expr).1 = a.expr) ↔
      v = .vNull ∨ ∃ s, v = .vString s ∧ validString s = true := by
  have hreturned : returnedExpr a.expr = .ok (.eConst (returnedValue v)) := by
    rw [hv]
    rfl
  have hintern : ((T.recoveredTable earlier).intern (.eConst (returnedValue v))).1 =
      .eConst (returnedValue v) :=
    (keyedTexts_recoveredTable earlier).intern_const hnull (isText_returnedValue v)
  rw [← returnedValue_eq_self_iff]
  constructor
  · rintro ⟨b, hb, hsame⟩
    have hback := hT.of_unmarshalJSON_eq_ok hdata hb
    rw [hreturned] at hback
    obtain rfl := Except.ok.inj hback
    have hconst : (Expr.eConst (returnedValue v) : Expr ι H) = .eConst v := by
      rw [← hintern, ← hv]
      exact hsame
    exact Expr.eConst.inj hconst
  · intro hsame
    have hdepth : (T.expr a.expr).depth < Json.maxNestingDepth := by
      rw [hv]
      have htwo : 2 < Json.maxNestingDepth := by decide
      rcases returnedValue_eq_self_iff.1 hsame with rfl | ⟨s, rfl, -⟩
      · exact htwo
      · exact htwo
    have hback := hT.unmarshalJSON_marshal hdata hdepth
    rw [hreturned] at hback
    refine ⟨_, hback, ?_⟩
    change ((T.recoveredTable earlier).intern (.eConst (returnedValue v))).1 = a.expr
    rw [hintern, hsame, hv]

end RecordTexts

/-! ### A string and a list -/

def plainDraw : Draw Digest := ⟨List.replicate 16 7, none, []⟩

/-- The steps of the first `AppendAtom`, which writes the value to the path `k`. -/
def writeValue (v : Value Unit) : List (LogAction Unit Digest) :=
  [.begin (.eConst v) (str "k") [] zeroTime 0 plainDraw, .log 0 none, .index 0, .store 0, .ret 0 []]

/-- The value of `k` after some steps. -/
def valueOf (actions : List (LogAction Unit Digest)) : Option (Expr Unit Digest) :=
  ((LoggedCrystal.init.run plainTexts.codec actions).crystal.getCurrent (str "k")).map (·.expr)

def stringAtom : CausalAtom Unit Digest :=
  CausalCrystal.mint ⟨∅, ∅, 0, 0⟩ 0 plainDraw (.eConst (.vString [0xC3, 0xA9])) (str "k") [] zeroTime

theorem value_returns_iff_string : ∃ data, plainTexts.marshal stringAtom = .ok data ∧
    ∃ b, plainTexts.unmarshalJSON data = .ok b ∧
      ((plainTexts.recoveredTable []).intern b.expr).1 = stringAtom.expr := by
  have hdata : plainTexts.marshal stringAtom =
      .ok (Json.obj (plainTexts.record stringAtom (decimalInt 0) (decimalInt zeroTime))).render := rfl
  exact ⟨_, hdata, (RecordTexts.value_returns_iff plainTexts_lawful (by unfold TellsNull; decide +kernel) []
    (v := .vString [0xC3, 0xA9]) rfl hdata).2 (.inr ⟨_, rfl, by decide⟩)⟩

/-- The list that `RPUSH k a` writes is a tombstone after a restart. -/
theorem list_returns_as_tombstone :
    valueOf (writeValue (.vArray () [.vString (str "a")])) = some (.eConst (.vArray () [.vString (str "a")])) ∧
      valueOf (writeValue (.vArray () [.vString (str "a")]) ++ [.restart]) = some (.eConst .vNull) := by
  refine ⟨by decide +kernel, by decide +kernel⟩

end Wavicle.Storage

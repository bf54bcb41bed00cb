import Wavicle.Storage.WalFile

/-! # A crash while the log is rewritten

`Rewrite` and `NewWAL` of `storage/wal.go`, on the directory of the log. Each operation may fail, and the
process may end after any of them. Between the two moves there is no log. -/

namespace Wavicle.Storage

open Lib Wavicle.Core List

/-! ### The directory -/

/-- The names that are used: `path`, `path + ".tmp"` and `path + ".old"`. -/
inductive FileName where
  | log
  | tmp
  | old
  deriving DecidableEq

/-- What the three files hold, if they exist. -/
structure Directory where
  log : Option Str
  tmp : Option Str
  old : Option Str

namespace Directory

def get (d : Directory) : FileName → Option Str
  | .log => d.log
  | .tmp => d.tmp
  | .old => d.old

def set (d : Directory) (contents : Option Str) : FileName → Directory
  | .log => { d with log := contents }
  | .tmp => { d with tmp := contents }
  | .old => { d with old := contents }

end Directory

/-- An operation on the directory, which happens as a whole. -/
inductive FileOp where
  /-- `os.OpenFile` with `O_CREATE|O_TRUNC` -/
  | create (n : FileName)
  /-- one byte of `f.Write` -/
  | write (n : FileName) (b : UInt8)
  | remove (n : FileName)
  | rename (n m : FileName)
  /-- `os.OpenFile` with `O_APPEND|O_CREATE` -/
  | touch (n : FileName)
  deriving DecidableEq

/-- The directory after an operation; renaming a file that does not exist fails. -/
def FileOp.apply (d : Directory) : FileOp → Directory
  | .create n => d.set (some []) n
  | .write n b => d.set ((d.get n).map (· ++ [b])) n
  | .remove n => d.set none n
  | .rename n m =>
    match d.get n with
    | some contents => (d.set (some contents) m).set none n
    | none => d
  | .touch n =>
    match d.get n with
    | some _ => d
    | none => d.set (some []) n

def newWAL (d : Directory) : Directory := FileOp.apply (FileOp.apply d (.remove .tmp)) (.touch .log)

def afterCrash (d : Directory) (done : List FileOp) : Str := (newWAL (done.foldl FileOp.apply d)).log.getD []

/-! ### `Rewrite` -/

/-- Which operations of a `Rewrite` fail, and after how many bytes a write does. -/
structure Faults where
  create : Bool
  write : Option ℕ
  sync : Bool
  remove : Bool
  backup : Bool
  install : Bool
  restore : Bool

namespace RecordTexts

variable {ι H : Type} [DecidableEq H] [Hashing H] (T : RecordTexts ι H)

/-- What the loop writes to the temporary file, and whether it stops at an atom that cannot be marshalled. -/
def newLog : List (CausalAtom ι H) → Str × Bool
  | [] => ([], false)
  | a :: atoms =>
    match T.marshal a with
    | .error _ => ([], true)
    | .ok data => (data ++ 10 :: (newLog atoms).1, (newLog atoms).2)

def tmpFails (atoms : List (CausalAtom ι H)) (f : Faults) : Bool :=
  (T.newLog atoms).2 || f.write.any (· < (T.newLog atoms).1.length) || f.sync

end RecordTexts

/-- The operations with which the new log takes the place of the old one, and those that undo it. -/
def swapOps (f : Faults) : List FileOp :=
  (if f.remove then [] else [.remove .old]) ++ (if f.backup then [] else [.rename .log .old]) ++
    if f.install then (if f.restore then [] else [.rename .old .log]) ++ [.touch .log]
    else [.rename .tmp .log, .remove .old, .remove .tmp, .touch .log]

namespace RecordTexts

variable {ι H : Type} [DecidableEq H] [Hashing H] (T : RecordTexts ι H)

def tmpBytes (atoms : List (CausalAtom ι H)) (f : Faults) : Str :=
  match f.write with
  | some n => (T.newLog atoms).1.take n
  | none => (T.newLog atoms).1

/-- `Rewrite`: the operations that do not fail -/
def rewriteOps (atoms : List (CausalAtom ι H)) (f : Faults) : List FileOp :=
  if f.create then []
  else .create .tmp :: (T.tmpBytes atoms f).map (.write .tmp) ++
    if T.tmpFails atoms f then [.remove .tmp] else swapOps f

end RecordTexts

/-! ### The log at each point -/

/-- What the log is after some operations of `Rewrite`, if it was `log` before and the temporary file is `new`. -/
def contents (done : List FileOp) (log new : Str) (old : Option Str) : Str :=
  if .rename .tmp .log ∈ done then new
  else if .rename .old .log ∈ done then
    -- a backup that was not made now is one that was left from before
    if .rename .log .old ∈ done ∨ .remove .old ∈ done then log else old.getD log
  else if .rename .log .old ∈ done then [] else log

theorem afterCrash_swapOps (f : Faults) (log new : Str) (old : Option Str) (j : ℕ) :
    afterCrash ⟨some log, some new, old⟩ ((swapOps f).take j) = contents ((swapOps f).take j) log new old := by
  obtain ⟨create, write, sync, remove, backup, install, restore⟩ := f
  cases remove <;> cases backup <;> cases install <;> cases restore <;> cases old <;>
    rcases j with _ | _ | _ | _ | _ | _ | _ | j <;> rfl

/-- The operation touches the temporary file only. -/
def OnTmp (op : FileOp) : Prop := op = .create .tmp ∨ op = .remove .tmp ∨ ∃ b, op = .write .tmp b

theorem foldl_onTmp : ∀ {ops : List FileOp}, (∀ op ∈ ops, OnTmp op) → ∀ d : Directory,
    (ops.foldl FileOp.apply d).log = d.log ∧ (ops.foldl FileOp.apply d).old = d.old
  | [], _, _ => ⟨rfl, rfl⟩
  | op :: ops, h, d => by
    obtain ⟨hop, hops⟩ := forall_mem_cons.1 h
    obtain ⟨hlog, hold⟩ := foldl_onTmp hops (FileOp.apply d op)
    rw [foldl_cons, hlog, hold]
    rcases hop with rfl | rfl | ⟨b, rfl⟩ <;> exact ⟨rfl, rfl⟩

theorem foldl_write : ∀ (bytes s : Str) (d : Directory), d.tmp = some s →
    ((bytes.map (FileOp.write .tmp)).foldl FileOp.apply d).tmp = some (s ++ bytes)
  | [], s, _, h => by
    rw [append_nil]
    exact h
  | b :: bytes, s, d, h => by
    have hfirst : (FileOp.apply d (.write .tmp b)).tmp = some (s ++ [b]) := congrArg (Option.map (· ++ [b])) h
    rw [map_cons, foldl_cons, foldl_write bytes (s ++ [b]) _ hfirst, append_assoc]
    rfl

theorem not_mem_of_onTmp {ops : List FileOp} (h : ∀ op ∈ ops, OnTmp op) {op : FileOp} (hop : ¬ OnTmp op) :
    op ∉ ops := fun hmem => hop (h op hmem)

theorem contents_append {ops : List FileOp} (h : ∀ op ∈ ops, OnTmp op) (done : List FileOp) (log new : Str)
    (old : Option Str) : contents (ops ++ done) log new old = contents done log new old := by
  have hmem : ∀ {op : FileOp}, ¬ OnTmp op → (op ∈ ops ++ done ↔ op ∈ done) := by
    intro op hop
    rw [mem_append]
    exact or_iff_right (not_mem_of_onTmp h hop)
  have hrename : ∀ n m, FileOp.rename n m ∈ ops ++ done ↔ FileOp.rename n m ∈ done :=
    fun n m => hmem (by simp [OnTmp])
  have hremove : FileOp.remove .old ∈ ops ++ done ↔ FileOp.remove .old ∈ done := hmem (by simp [OnTmp])
  simp only [contents, hrename, hremove]

theorem newWAL_log {d : Directory} {log : Str} (h : d.log = some log) : (newWAL d).log = some log := by
  obtain ⟨dlog, dtmp, dold⟩ := d
  obtain rfl : dlog = some log := h
  rfl

namespace RecordTexts

variable {ι H : Type} [DecidableEq H] [Hashing H] {T : RecordTexts ι H}

variable {atoms : List (CausalAtom ι H)}

omit [DecidableEq H] in
theorem tmpBytes_eq {f : Faults} (h : T.tmpFails atoms f = false) :
    T.tmpBytes atoms f = (T.newLog atoms).1 := by
  unfold tmpBytes
  cases hwrite : f.write with
  | none => rfl
  | some n =>
    rw [tmpFails, hwrite] at h
    refine take_of_length_le ?_
    simp only [Option.any_some, Bool.or_eq_false_iff, decide_eq_false_iff_not, not_lt] at h
    exact h.1.2

omit [DecidableEq H] in
theorem afterCrash_take {d : Directory} {log : Str} (hlog : d.log = some log) (atoms : List (CausalAtom ι H))
    (f : Faults) (k : ℕ) : afterCrash d ((T.rewriteOps atoms f).take k) =
      contents ((T.rewriteOps atoms f).take k) log (T.newLog atoms).1 d.old := by
  -- as long as only the temporary file is touched, the log stays
  have hquiet : ∀ ops : List FileOp, (∀ op ∈ ops, OnTmp op) →
      afterCrash d ops = contents ops log (T.newLog atoms).1 d.old := by
    intro ops hops
    have hcontents := contents_append hops [] log (T.newLog atoms).1 d.old
    rw [append_nil] at hcontents
    have hsame : (ops.foldl FileOp.apply d).log = some log := (foldl_onTmp hops d).1.trans hlog
    rw [hcontents, afterCrash, newWAL_log hsame]
    rfl
  have htmp : ∀ op ∈ FileOp.create .tmp :: (T.tmpBytes atoms f).map (.write .tmp), OnTmp op := by
    refine forall_mem_cons.2 ⟨Or.inl rfl, fun op hop => ?_⟩
    obtain ⟨b, -, rfl⟩ := mem_map.1 hop
    exact Or.inr (Or.inr ⟨b, rfl⟩)
  unfold rewriteOps
  by_cases hcreate : f.create = true
  · rw [if_pos hcreate, take_nil]
    exact hquiet [] (forall_mem_nil _)
  · rw [if_neg hcreate]
    generalize hpre : FileOp.create .tmp :: (T.tmpBytes atoms f).map (.write .tmp) = pre at htmp
    cases hfails : T.tmpFails atoms f with
    | true =>
      rw [if_pos rfl]
      refine hquiet _ fun op hop => ?_
      rcases mem_append.1 (mem_of_mem_take hop) with hop | hop
      · exact htmp op hop
      · exact Or.inr (Or.inl (mem_singleton.1 hop))
    | false =>
      rw [if_neg (by decide), take_append]
      by_cases hk : k ≤ pre.length
      · rw [Nat.sub_eq_zero_of_le hk, take_zero, append_nil]
        exact hquiet _ fun op hop => htmp op (mem_of_mem_take hop)
      · -- the temporary file is complete
        have hdir : pre.foldl FileOp.apply d = ⟨some log, some (T.newLog atoms).1, d.old⟩ := by
          obtain ⟨hlog', hold'⟩ := foldl_onTmp htmp d
          have htmp' : (pre.foldl FileOp.apply d).tmp = some (T.newLog atoms).1 := by
            rw [← hpre, foldl_cons, foldl_write (T.tmpBytes atoms f) [] _ rfl, tmpBytes_eq hfails]
            rfl
          rw [← hlog, ← hlog', ← htmp', ← hold']
        rw [take_of_length_le (Nat.le_of_not_le hk), contents_append htmp, ← afterCrash_swapOps, afterCrash,
          foldl_append, hdir]
        rfl

/-! ### What a restart finds -/

omit [DecidableEq H] in
theorem newLog_eq_unlines : ∀ {atoms : List (CausalAtom ι H)}, (T.newLog atoms).2 = false →
    ∃ lines, T.Marshalled atoms lines ∧ (T.newLog atoms).1 = unlines lines
  | [], _ => ⟨[], .nil, rfl⟩
  | a :: atoms, h => by
    cases hdata : T.marshal a with
    | error msg =>
      rw [newLog, hdata] at h
      cases h
    | ok data =>
      rw [newLog, hdata] at h
      obtain ⟨lines, hlines, heq⟩ := newLog_eq_unlines h
      refine ⟨data :: lines, .cons hdata hlines, ?_⟩
      rw [newLog, hdata]
      simp [unlines, heq]

omit [DecidableEq H] in
theorem newLog_of_installed {f : Faults} {k : ℕ}
    (h : FileOp.rename .tmp .log ∈ (T.rewriteOps atoms f).take k) : (T.newLog atoms).2 = false := by
  have hmem := mem_of_mem_take h
  unfold rewriteOps at hmem
  split_ifs at hmem with hcreate hfails
  · cases hmem
  · simp at hmem
  · rw [Bool.not_eq_true, tmpFails, Bool.or_eq_false_iff, Bool.or_eq_false_iff] at hfails
    exact hfails.1.1

/-- A restart finds what the old log has, or the atoms of the new one. -/
def FindsOldOrNew (T : RecordTexts ι H) (log found : Str) (atoms : List (CausalAtom ι H)) : Prop :=
  T.readAll found = T.readAll log ∨ T.readAll found = some atoms

omit [DecidableEq H] in
/-- **A crash of `Rewrite`.** After any part of its operations, whichever of them fail, a restart finds all atoms of
the old log or exactly the given ones if and only if

* where the new log has been installed, these atoms are read back from their records, or it reads like the old log;
* where the old log has been moved away and neither it nor the new one has taken its place, the old log has no
  atoms, or none are given;
* where a backup has been put in place of the log that was not made from it, it is one or the other. -/
theorem rewrite_crash_iff (hT : T.Lawful) {d : Directory} {log : Str} (hlog : d.log = some log)
    (atoms : List (CausalAtom ι H)) (f : Faults) (k : ℕ) :
    FindsOldOrNew T log (afterCrash d ((T.rewriteOps atoms f).take k)) atoms ↔
      (FileOp.rename .tmp .log ∈ (T.rewriteOps atoms f).take k →
        (∀ a ∈ atoms, T.ReadsBack a) ∨ T.readAll (T.newLog atoms).1 = T.readAll log) ∧
      (FileOp.rename .log .old ∈ (T.rewriteOps atoms f).take k →
        FileOp.rename .tmp .log ∉ (T.rewriteOps atoms f).take k →
        FileOp.rename .old .log ∉ (T.rewriteOps atoms f).take k → T.readAll log = some [] ∨ atoms = []) ∧
      (FileOp.rename .old .log ∈ (T.rewriteOps atoms f).take k →
        FileOp.rename .tmp .log ∉ (T.rewriteOps atoms f).take k →
        FileOp.rename .log .old ∉ (T.rewriteOps atoms f).take k →
        FileOp.remove .old ∉ (T.rewriteOps atoms f).take k →
        ∀ old, d.old = some old → FindsOldOrNew T log old atoms) := by
  have hempty : T.readAll [] = some [] := rfl
  have hinstalled : FileOp.rename .tmp .log ∈ (T.rewriteOps atoms f).take k →
      (FindsOldOrNew T log (T.newLog atoms).1 atoms ↔
        (∀ a ∈ atoms, T.ReadsBack a) ∨ T.readAll (T.newLog atoms).1 = T.readAll log) := by
    intro h
    obtain ⟨lines, hlines, heq⟩ := newLog_eq_unlines (newLog_of_installed h)
    rw [FindsOldOrNew, or_comm, ← hT.readAll_unlines_iff hlines, heq]
  rw [afterCrash_take hlog, contents]
  generalize (T.rewriteOps atoms f).take k = done at hinstalled ⊢
  by_cases hnew : FileOp.rename .tmp .log ∈ done
  · simp only [hnew, if_true, hinstalled hnew, not_true_eq_false, forall_const, IsEmpty.forall_iff, implies_true,
      and_true]
  · by_cases hrestored : FileOp.rename .old .log ∈ done
    · by_cases hmoved : FileOp.rename .log .old ∈ done ∨ FileOp.remove .old ∈ done
      · rw [if_neg hnew, if_pos hrestored, if_pos hmoved]
        refine iff_of_true (Or.inl rfl) ⟨fun h => absurd h hnew, fun _ _ h => absurd hrestored h, ?_⟩
        intro _ _ hlogold hremove
        exact absurd hmoved (not_or.2 ⟨hlogold, hremove⟩)
      · rw [if_neg hnew, if_pos hrestored, if_neg hmoved]
        obtain ⟨hlogold, hremove⟩ := not_or.1 hmoved
        cases hold : d.old with
        | none =>
          refine iff_of_true (Or.inl rfl) ⟨fun h => absurd h hnew, fun h => absurd h hlogold, ?_⟩
          exact fun _ _ _ _ old h => by cases h
        | some old =>
          constructor
          · intro h
            refine ⟨fun h => absurd h hnew, fun h => absurd h hlogold, fun _ _ _ _ old' hold' => ?_⟩
            obtain rfl := Option.some.inj hold'
            exact h
          · intro h
            exact h.2.2 hrestored hnew hlogold hremove old rfl
    · rw [if_neg hnew, if_neg hrestored]
      by_cases hmoved : FileOp.rename .log .old ∈ done
      · rw [if_pos hmoved]
        constructor
        · intro h
          refine ⟨fun h => absurd h hnew, fun _ _ _ => ?_, fun h => absurd h hrestored⟩
          rw [FindsOldOrNew, hempty] at h
          exact h.imp Eq.symm fun h => (Option.some.inj h).symm
        · intro h
          rw [FindsOldOrNew, hempty]
          exact (h.2.1 hmoved hnew hrestored).imp Eq.symm fun h => congrArg some h.symm
      · rw [if_neg hmoved]
        exact iff_of_true (Or.inl rfl) ⟨fun h => absurd h hnew, fun h => absurd h hmoved,
          fun h => absurd h hrestored⟩

end RecordTexts

/-! ### Between the moves -/

def noFaults : Faults := ⟨false, none, false, false, false, false, false⟩

def oneAtomLog : Directory := ⟨some (stringRecord ++ [10]), none, none⟩

def sameRewrite : List FileOp := plainTexts.rewriteOps [stringAtom] noFaults

theorem rewrite_crash_iff_done : plainTexts.FindsOldOrNew (stringRecord ++ [10])
    (afterCrash oneAtomLog (sameRewrite.take sameRewrite.length)) [stringAtom] := by
  refine (RecordTexts.rewrite_crash_iff plainTexts_lawful rfl [stringAtom] noFaults sameRewrite.length).2
    ⟨fun _ => Or.inl (forall_mem_singleton.2 readsBack_stringAtom), fun _ hnew => ?_, fun hrestored => ?_⟩
  · exact absurd (by decide +kernel) hnew
  · exact absurd hrestored (by decide +kernel)

/-- A crash between the moves leaves no log: a restart makes an empty one. -/
theorem crash_between_renames_empties_log :
    afterCrash oneAtomLog (sameRewrite.take (sameRewrite.length - 4)) = [] ∧
      ¬ plainTexts.FindsOldOrNew (stringRecord ++ [10])
        (afterCrash oneAtomLog (sameRewrite.take (sameRewrite.length - 4))) [stringAtom] := by
  have hfound : afterCrash oneAtomLog (sameRewrite.take (sameRewrite.length - 4)) = [] := by
    rw [sameRewrite, RecordTexts.afterCrash_take rfl]
    decide +kernel
  refine ⟨hfound, ?_⟩
  rw [hfound]
  rintro (h | h)
  · have hone : (plainTexts.readAll (stringRecord ++ [10])).map List.length = some 1 := by decide +kernel
    rw [← h] at hone
    cases hone
  · cases h

end Wavicle.Storage

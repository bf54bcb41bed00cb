import Wavicle.Resp3.ReadCommand

/-! # What the migration prover asks for

`respGet` puts quotes around a key with a blank or a line end; `readCommand` knows no quotes. -/

namespace Wavicle.Migrate

open Lib Resp3

def escapeArg (s : Str) : Str := if s.any (· ∈ str " \r\n") then 34 :: s ++ [34] else s

/-- What `respGet` sends. -/
def getRequest (key : Str) : Str := str "GET " ++ escapeArg key ++ str "\r\n"

theorem fields_get (s : Str) : fields (str "GET " ++ s) = str "GET" :: fields s := by
  have hrunes : (runes (str "GET " ++ s)).map (·.2) = [[71], [69], [84]] ++ [32] :: (runes s).map (·.2) := by
    have hone : ∀ (b : UInt8) (t : Str), b < 0x80 → (runes (b :: t)).map (·.2) = [b] :: (runes t).map (·.2) := by
      intro b t hb
      rw [runes_of_encodingLength (w := 1) (by simp [encodingLength, hb])]
      rfl
    exact (hone 71 _ (by decide)).trans <| congrArg _ <| (hone 69 _ (by decide)).trans <| congrArg _ <|
      (hone 84 _ (by decide)).trans <| congrArg _ <| hone 32 _ (by decide)
  rw [fields, hrunes, List.splitOnP_append_cons_of_forall_mem (by decide) [32] (by decide)]
  rfl

theorem readCommand_eq_ok {s line rest rest' : Str} {args : List Str}
    (h : readLine s = .ok (line, rest)) (hhead : line.head? = some 71) : readCommand s = .ok (args, rest') ↔
      (fields line).length ≤ maxArgs ∧ fields line = args ∧ rest = rest' := by
  obtain ⟨word, rfl⟩ := List.head?_eq_some_iff.1 hhead
  unfold readCommand
  rw [h]
  change (if maxArgs < (fields (71 :: word)).length then _ else _) = _ ↔ _
  split_ifs with hmany
  · simp [hmany]
  · simp [not_lt.1 hmany]

/-- A request is a line of words, whatever the key. -/
theorem eq_fields_of_readCommand {t rest : Str} {args : List Str}
    (h : readCommand (71 :: t) = .ok (args, rest)) : ∃ line, fields line = args := by
  cases hread : readString t with
  | none =>
    rw [readCommand, readLine, readString, if_neg (by decide), hread] at h
    cases h
  | some p =>
    have hline : readLine (71 :: t) = .ok (71 :: trimRight p.1 (str "\r\n"), p.2) := by
      rw [readLine, readString, if_neg (by decide), hread]
      exact congrArg (fun l => Except.ok (l, p.2)) (trimRight_cons (by decide) p.1)
    exact ⟨_, ((readCommand_eq_ok hline rfl).1 h).2.1⟩

/-- **The prover asks for the key it means** exactly if the key is one word: not empty, and without white
space. -/
theorem asks_for_key_iff (key : Str) :
    readCommand (getRequest key) = .ok ([str "GET", key], []) ↔ fields key = [key] := by
  by_cases hplain : ∀ b ∈ key, b ∉ str " \r\n"
  · have hescape : escapeArg key = key := if_neg (by simpa using hplain)
    have hclean : ∀ b ∈ str "GET " ++ key, b ∉ str "\r\n" := by
      have hget : ∀ b ∈ str "GET ", b ∉ str "\r\n" := by decide +kernel
      exact List.forall_mem_append.2 ⟨hget, fun b hb hend => hplain b hb (.tail _ hend)⟩
    have hread : readString (getRequest key) = some (str "GET " ++ key ++ str "\r\n", []) := by
      have hassoc : getRequest key = (str "GET " ++ key ++ [13]) ++ 10 :: [] := by
        simp [getRequest, hescape, str]
      rw [hassoc, readString_append]
      · simp [str]
      · simpa [str] using fun h => hclean 10 (List.mem_append_right _ h) (by decide)
    have hline : readLine (getRequest key) = .ok (str "GET " ++ key, []) := by
      rw [readLine, hread]
      exact congrArg (fun l => Except.ok (l, [])) (trimRight_append (fun _ hb => hb) hclean)
    rw [readCommand_eq_ok hline rfl, fields_get]
    constructor
    · rintro ⟨-, hargs, -⟩
      exact (List.cons.inj hargs).2
    · intro hkey
      rw [hkey]
      exact ⟨by simp [maxArgs], rfl, rfl⟩
  · have hnot : ∀ line, key ∉ fields line := fun line hmem => hplain (not_mem_of_mem_fields hmem)
    refine iff_of_false (fun h => ?_) fun h => hnot key (h ▸ List.mem_singleton_self key)
    obtain ⟨line, hargs⟩ := eq_fields_of_readCommand h
    exact hnot line (hargs ▸ by simp)

/-- A key with a blank is asked for as two words, and the rest of a key with a line end is the next command. -/
theorem quoted_keys_torn :
    readCommand (getRequest (str "a b")) = .ok ([str "GET", str "\"a", str "b\""], []) ∧
    readCommand (getRequest (str "a\nDEL b")) = .ok ([str "GET", str "\"a"], str "DEL b\"\r\n") := by
  decide +kernel

end Wavicle.Migrate

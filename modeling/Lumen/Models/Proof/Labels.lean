import Lumen.Lib.OrderStat
import Lumen.Models.ImageNetProcessor

/-!
# The labels of the classes

The constructor keeps the lines of the label file that are not blank, so the label of the class `c`
is the `c`-th of these (`labels_follow`), and line `c` of the file only where no blank line comes
before it. The class is the first maximum of the tensor (`maxElement_firstMax`), as an `int`: from
`2 ^ 31` on it is another number, and so is the number of labels (`labels_shifted`).
-/

set_option autoImplicit false

namespace Lumen.Models.ImageNetPostProcessor

open Lumen.Lib Lumen.Core

/-! ## The label file -/

/-- What the loop of `getline` reads: a last line that is empty is not read. -/
def lines (file : List UInt8) : List (List UInt8) :=
  if (file.splitOn 10).getLast? = some [] then (file.splitOn 10).dropLast else file.splitOn 10

def nonblank (file : List UInt8) : List (List UInt8) :=
  (lines file).filter fun line => !line.isEmpty

/-- The file of the lines `ls`, each with its newline. -/
def fileOf (ls : List (List UInt8)) : List UInt8 := ls.flatMap (· ++ [10])

variable {file file' : List UInt8} {ls : List (List UInt8)} {c : Nat}

theorem labels_new (file : List UInt8) : (new (some file)).labels = nonblank file := by
  change (file.splitOn 10).filter _ = _
  unfold nonblank lines
  split <;> rename_i hlast
  · have hne : file.splitOn 10 ≠ [] := by
      intro he
      rw [he] at hlast
      cases hlast
    have hsplit := List.dropLast_append_getLast hne
    rw [List.getLast?_eq_some_getLast hne, Option.some.injEq] at hlast
    rw [hlast] at hsplit
    conv_lhs => rw [← hsplit]
    rw [List.filter_append]
    exact List.append_nil _
  · rfl

theorem fileOf_eq_intercalate (ls : List (List UInt8)) :
    fileOf ls = [10].intercalate (ls ++ [[]]) := by
  induction ls with
  | nil => rfl
  | cons l ls ih =>
    obtain ⟨x, xs, hx⟩ : ∃ x xs, ls ++ [[]] = x :: xs := by
      cases ls <;> exact ⟨_, _, rfl⟩
    rw [List.cons_append, hx]
    simp only [fileOf, List.flatMap_cons, List.append_assoc] at ih ⊢
    rw [ih, hx]
    simp [List.intercalate]

/-- Any lines are the lines of a file. -/
theorem lines_fileOf (h : ∀ l ∈ ls, 10 ∉ l) : lines (fileOf ls) = ls := by
  have hsplit : (fileOf ls).splitOn 10 = ls ++ [[]] := by
    rw [fileOf_eq_intercalate]
    refine List.splitOn_intercalate 10 (fun l hl => ?_) (by simp)
    rcases List.mem_append.1 hl with hl | hl
    · exact h l hl
    · rw [List.mem_singleton.1 hl]
      exact List.not_mem_nil
  rw [lines, hsplit, List.getLast?_concat, if_pos rfl, List.dropLast_concat]

/-- The lines before the first blank one keep their places. -/
theorem nonblank_get (hc : c < (lines file).length) (h : [] ∉ (lines file).take (c + 1)) :
    (nonblank file)[c]? = (lines file)[c]? := by
  have hkeep : ((lines file).take (c + 1)).filter (fun line => !line.isEmpty) =
      (lines file).take (c + 1) := by
    refine List.filter_eq_self.2 fun l hl => ?_
    cases l with
    | nil => exact absurd hl h
    | cons => rfl
  have hsplit : nonblank file = (lines file).take (c + 1) ++
      ((lines file).drop (c + 1)).filter fun line => !line.isEmpty := by
    rw [nonblank, ← hkeep, ← List.filter_append, List.take_append_drop]
  rw [hsplit, List.getElem?_append_left (by rw [List.length_take]; omega),
    List.getElem?_take_of_lt (Nat.lt_succ_self c)]

/-! ## The class -/

variable {α : Type} [LinearOrder α] {l : List α} {best : Nat} {max v : α}

/-- The comparison of the values. -/
abbrev ltOf (a b : α) : Bool := decide (a < b)

/-- The search keeps the first maximum of what it has seen. -/
theorem maxElement_firstMax (h : FirstMax l best max) (vs : List α) :
    ∃ v, FirstMax (l ++ vs) (maxElement ltOf l.length best max vs) v := by
  induction vs generalizing l best max with
  | nil => exact ⟨max, by rwa [List.append_nil]⟩
  | cons w vs ih =>
    have hlen : (l ++ [w]).length = l.length + 1 := by
      rw [List.length_append, List.length_singleton]
    rw [List.append_cons]
    simp only [maxElement, ← hlen]
    split <;> rename_i hlt
    · exact ih (h.append_lt (of_decide_eq_true hlt))
    · exact ih (h.append_le (not_lt.1 fun h => hlt (decide_eq_true h)))

variable {results : List α} {count : Nat}

theorem exists_firstMax (post : ImageNetPostProcessor) (hcount : 0 < count)
    (hlen : count ≤ results.length) : ∃ c v, FirstMax (results.take count) c v ∧
      post.handleResults ltOf (some results) count = labelName post.labels (castInt c) := by
  have hpos : 0 < (results.take count).length := by
    rw [List.length_take]
    omega
  obtain ⟨w, ws, hw⟩ := List.exists_cons_of_length_pos hpos
  obtain ⟨v, hv⟩ := maxElement_firstMax (FirstMax.singleton w) ws
  refine ⟨maxElement ltOf 1 0 w ws, v, by rw [hw]; exact hv, ?_⟩
  simp only [handleResults, if_neg (Nat.ne_of_gt hcount), if_neg (Nat.not_lt.2 hlen), hw]

/-- The answer is the label of the first maximum, as an `int`. -/
theorem handleResults_eq (post : ImageNetPostProcessor) (hcount : 0 < count)
    (hlen : count ≤ results.length) (h : FirstMax (results.take count) c v) :
    post.handleResults ltOf (some results) count = labelName post.labels (castInt c) := by
  obtain ⟨c', v', h', heq⟩ := exists_firstMax post hcount hlen
  rw [heq, (h.unique h').1]

theorem castInt_of_lt {n : Nat} (h : n < 2 ^ 31) : castInt n = n := by
  unfold castInt
  rw [Int.bmod_eq_of_le] <;> omega

theorem labelName_of_lt {labels : List (List UInt8)} (hl : labels.length < 2 ^ 31)
    (hc : c < 2 ^ 31) : labelName labels (castInt c) =
      some (labels[c]?.getD (bytes "Unknown")) := by
  have hsize : sizeT (c : Int) = c := by
    unfold sizeT
    omega
  rw [labelName, castInt_of_lt hl, castInt_of_lt hc, hsize]
  split <;> rename_i hlt
  · rw [List.getElem?_eq_getElem (by exact_mod_cast hlt), Option.getD_some]
  · rw [List.getElem?_eq_none (by omega), Option.getD_none]

/-- What `handle_results` returns, with the labels of `file`. -/
def answer (file : List UInt8) (results : List α) (count : Nat) : Option (List UInt8) :=
  (new (some file)).handleResults ltOf (some results) count

theorem answer_eq (file : List UInt8) (hcount : 0 < count) (hlen : count ≤ results.length)
    (h : FirstMax (results.take count) c v) :
    answer file results count = labelName (nonblank file) (castInt c) := by
  rw [answer, handleResults_eq _ hcount hlen h, labels_new]

/-- **Labels.** For fewer than `2 ^ 31` non-blank lines the tensor has a first maximum, and below
`2 ^ 31` its label is the non-blank line of that number. Blank lines play no part, and up to the
first of them these are the lines of the file. -/
theorem labels_follow (file : List UInt8) (hcount : 0 < count) (hlen : count ≤ results.length)
    (hlabels : (nonblank file).length < 2 ^ 31) :
    (∃ c v, FirstMax (results.take count) c v) ∧
    (∀ c v, FirstMax (results.take count) c v → c < 2 ^ 31 →
      answer file results count = some ((nonblank file)[c]?.getD (bytes "Unknown")) ∧
      (c < (lines file).length → [] ∉ (lines file).take (c + 1) →
        answer file results count = (lines file)[c]?)) ∧
    ∀ ls ls' file', lines file = ls ++ [] :: ls' → lines file' = ls ++ ls' →
      answer file' results count = answer file results count := by
  obtain ⟨c, v, h, -⟩ := exists_firstMax (new (some file)) hcount hlen
  refine ⟨⟨c, v, h⟩, fun c v h hc => ?_, fun ls ls' file' hf hf' => ?_⟩
  · have hans : answer file results count = some ((nonblank file)[c]?.getD (bytes "Unknown")) := by
      rw [answer_eq file hcount hlen h, labelName_of_lt hlabels hc]
    refine ⟨hans, fun hlt hblank => ?_⟩
    rw [hans, nonblank_get hlt hblank, List.getElem?_eq_getElem hlt, Option.getD_some]
  · have hsame : nonblank file' = nonblank file := by
      rw [nonblank, nonblank, hf, hf', List.filter_append, List.filter_append]
      rfl
    rw [answer_eq file hcount hlen h, answer_eq file' hcount hlen h, hsame]

theorem labels_follow_two : answer (fileOf [bytes "cat", bytes "dog"]) [(0 : Int), 1] 2 =
    some (bytes "dog") :=
  (((labels_follow (fileOf [bytes "cat", bytes "dog"]) (show 0 < 2 by decide)
    (show 2 ≤ [(0 : Int), 1].length by decide) (by decide)).2.1 1 1
    ⟨rfl, by decide, by decide⟩ (by decide)).1).trans (by decide)

/-! ## The numbers of the lines -/

/-- The label is the line of the file whose number is the class, `Unknown` where there is no such
line or it is blank. -/
def FollowsLines (file : List UInt8) (results : List α) (count : Nat) : Prop :=
  ∀ c v, FirstMax (results.take count) c v → answer file results count =
    some ((((lines file)[c]?).filter fun line => !line.isEmpty).getD (bytes "Unknown"))

theorem not_followsLines_class {n : Nat} (hn : castInt n < 0) :
    ¬ FollowsLines [] (List.replicate n (0 : Int) ++ [1]) (n + 1) := by
  intro hf
  have hlen : (List.replicate n (0 : Int) ++ [1]).length = n + 1 := by simp
  have hmax : FirstMax ((List.replicate n (0 : Int) ++ [1]).take (n + 1)) n 1 := by
    rw [List.take_of_length_le (Nat.le_of_eq hlen)]
    refine ⟨by simp, fun x hx => ?_, fun x hx => ?_⟩
    · rcases List.mem_append.1 hx with hx | hx
      · rw [List.eq_of_mem_replicate hx]
        exact Int.zero_le_ofNat 1
      · exact Int.le_of_eq (List.mem_singleton.1 hx)
    · rw [List.take_left' List.length_replicate] at hx
      rw [List.eq_of_mem_replicate hx]
      exact Int.one_pos
  have hans := hf n 1 hmax
  rw [answer_eq [] (Nat.succ_pos n) (Nat.le_of_eq hlen.symm) hmax, labelName, if_pos (by exact hn)]
    at hans
  cases hans

theorem not_followsLines_labels {n : Nat} (hpos : 0 < n) (hn : castInt n ≤ 0) :
    ¬ FollowsLines (fileOf (List.replicate n [65])) [(0 : Int)] 1 := by
  intro hf
  have hlines : lines (fileOf (List.replicate n [65])) = List.replicate n [65] :=
    lines_fileOf fun l hl => by
      rw [List.eq_of_mem_replicate hl]
      decide
  have hblank : nonblank (fileOf (List.replicate n [65])) = List.replicate n [65] := by
    rw [nonblank, hlines]
    exact List.filter_eq_self.2 fun l hl => by
      rw [List.eq_of_mem_replicate hl]
      rfl
  have hmax : FirstMax ([(0 : Int)].take 1) 0 0 := .singleton 0
  have hans := hf 0 0 hmax
  have hone : 1 ≤ [(0 : Int)].length := Nat.le_refl 1
  have hge : ¬ castInt 0 < castInt n := Int.not_lt.2 hn
  rw [answer_eq _ Nat.one_pos hone hmax, hblank, hlines, labelName,
    List.length_replicate, if_neg hge, List.getElem?_replicate_of_lt hpos] at hans
  exact absurd hans (by decide)

/-- **Shifted labels.** After a blank line the labels are those of later lines; a class and a number
of labels from `2 ^ 31` on are negative. -/
theorem labels_shifted :
    ¬ FollowsLines (bytes "cat\n\ndog") [(0 : Int), 0, 1] 3 ∧
    ¬ FollowsLines [] (List.replicate (2 ^ 31) (0 : Int) ++ [1]) (2 ^ 31 + 1) ∧
    ¬ FollowsLines (fileOf (List.replicate (2 ^ 31) [65])) [(0 : Int)] 1 := by
  refine ⟨fun hf => ?_, not_followsLines_class (by decide),
    not_followsLines_labels (by decide) (by decide)⟩
  have hans := hf 2 1 ⟨rfl, by decide, by decide⟩
  exact absurd hans (by decide)

end Lumen.Models.ImageNetPostProcessor

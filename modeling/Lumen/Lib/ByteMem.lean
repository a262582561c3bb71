import Mathlib.Data.List.Basic
import Mathlib.Data.Nat.Bitwise

/-!
# A memory of bytes

A memory maps addresses to bytes. `store` writes consecutive bytes and `load` reads them; a word is
eight bytes, least significant first. A load after a store gives what was stored (`load_store`,
`loadWord_storeWord`), or what was there before where the two do not overlap; in general it only
depends on the bytes it reads (`load_congr`).
-/

set_option autoImplicit false

namespace Lumen.Lib

abbrev ByteMem := Nat → UInt8

/-- The lowest `k` bytes of a number. -/
def wordBytes : Nat → Nat → List UInt8
  | 0, _ => []
  | k + 1, v => UInt8.ofNat v :: wordBytes k (v / 256)

def ofBytes : List UInt8 → Nat
  | [] => 0
  | b :: bs => b.toNat + 256 * ofBytes bs

@[simp] theorem length_wordBytes (k v : Nat) : (wordBytes k v).length = k := by
  induction k generalizing v with
  | zero => rfl
  | succ k ih => rw [wordBytes, List.length_cons, ih]

theorem ofBytes_wordBytes {k v : Nat} (h : v < 256 ^ k) : ofBytes (wordBytes k v) = v := by
  induction k generalizing v with
  | zero =>
    rw [Nat.pow_zero] at h
    rw [wordBytes, ofBytes]
    omega
  | succ k ih =>
    rw [Nat.pow_succ] at h
    rw [wordBytes, ofBytes, ih (by omega), UInt8.toNat_ofNat']
    omega

namespace ByteMem

variable {m m' : ByteMem} {p q n v : Nat} {bs : List UInt8}

def store (m : ByteMem) (p : Nat) (bs : List UInt8) : ByteMem :=
  fun x => if p ≤ x then (bs[x - p]?).getD (m x) else m x

def load (m : ByteMem) (p n : Nat) : List UInt8 := (List.range n).map fun k => m (p + k)

def storeWord (m : ByteMem) (p v : Nat) : ByteMem := m.store p (wordBytes 8 v)

def loadWord (m : ByteMem) (p : Nat) : Nat := ofBytes (m.load p 8)

theorem store_of_notMem {x : Nat} (h : x < p ∨ p + bs.length ≤ x) : m.store p bs x = m x := by
  unfold store
  split
  · rw [List.getElem?_eq_none (by omega), Option.getD_none]
  · rfl

theorem load_congr (h : ∀ x, p ≤ x → x < p + n → m' x = m x) : m'.load p n = m.load p n := by
  refine List.map_congr_left fun k hk => h _ (Nat.le_add_right p k) ?_
  have := List.mem_range.1 hk
  omega

/-- Part of what was stored. -/
theorem load_store_sub (k : Nat) (h : k + n ≤ bs.length) :
    (m.store p bs).load (p + k) n = (bs.drop k).take n := by
  refine List.ext_getElem ?_ fun j h1 h2 => ?_
  · simp only [load, List.length_map, List.length_range, List.length_take, List.length_drop]
    omega
  · have hj : j < n := by simpa [load] using h1
    simp only [load, List.getElem_map, List.getElem_range, List.getElem_take, List.getElem_drop]
    rw [store, if_pos (by omega), show p + k + j - p = k + j by omega,
      List.getElem?_eq_getElem (by omega), Option.getD_some]

theorem load_store : (m.store p bs).load p bs.length = bs := by
  have h : (m.store p bs).load (p + 0) bs.length = (bs.drop 0).take bs.length :=
    load_store_sub 0 (by omega)
  simpa using h

theorem loadWord_congr (h : ∀ x, p ≤ x → x < p + 8 → m' x = m x) : m'.loadWord p = m.loadWord p :=
  congrArg ofBytes (load_congr h)

theorem storeWord_of_notMem {x : Nat} (h : x < p ∨ p + 8 ≤ x) : m.storeWord p v x = m x :=
  store_of_notMem (by rwa [length_wordBytes])

theorem loadWord_storeWord (h : v < 2 ^ 64) : (m.storeWord p v).loadWord p = v := by
  have hl : (m.storeWord p v).load p 8 = wordBytes 8 v := by
    have h : (m.storeWord p v).load p (wordBytes 8 v).length = wordBytes 8 v := load_store
    rwa [length_wordBytes] at h
  rw [loadWord, hl]
  exact ofBytes_wordBytes h

/-! ## Arrays of words and strings -/

def loadWords (m : ByteMem) (p n : Nat) : List Nat :=
  (List.range n).map fun k => m.loadWord (p + 8 * k)

theorem loadWords_congr (h : ∀ x, p ≤ x → x < p + 8 * n → m' x = m x) :
    m'.loadWords p n = m.loadWords p n := by
  refine List.map_congr_left fun k hk => loadWord_congr fun x h1 h2 => h x (by omega) ?_
  have := List.mem_range.1 hk
  omega

theorem length_flatMap_wordBytes (vs : List Nat) :
    (vs.flatMap (wordBytes 8)).length = 8 * vs.length := by
  induction vs with
  | nil => rfl
  | cons v vs ih =>
    rw [List.flatMap_cons, List.length_append, length_wordBytes, ih, List.length_cons]
    omega

theorem drop_flatMap_wordBytes {vs : List Nat} {k : Nat} (h : k < vs.length) :
    ((vs.flatMap (wordBytes 8)).drop (8 * k)).take 8 = wordBytes 8 vs[k] := by
  induction vs generalizing k with
  | nil => exact absurd h (Nat.not_lt_zero k)
  | cons v vs ih =>
    rw [List.flatMap_cons]
    cases k with
    | zero => exact List.take_left' (length_wordBytes 8 v)
    | succ k =>
      rw [show 8 * (k + 1) = (wordBytes 8 v).length + 8 * k by rw [length_wordBytes]; omega,
        List.drop_length_add_append, List.getElem_cons_succ]
      exact ih (Nat.lt_of_succ_lt_succ h)

theorem loadWords_store {vs : List Nat} (h : ∀ v ∈ vs, v < 2 ^ 64) :
    (m.store p (vs.flatMap (wordBytes 8))).loadWords p vs.length = vs := by
  refine List.ext_getElem (by simp [loadWords]) fun k h1 h2 => ?_
  simp only [loadWords, List.getElem_map, List.getElem_range]
  rw [loadWord, load_store_sub, drop_flatMap_wordBytes h2]
  · exact ofBytes_wordBytes (h _ (List.getElem_mem h2))
  · rw [length_flatMap_wordBytes]
    omega

/-- The bytes before the first zero byte, at most `n` of them. -/
def loadString (m : ByteMem) (p : Nat) : Nat → List UInt8
  | 0 => []
  | n + 1 => if m p = 0 then [] else m p :: loadString m (p + 1) n

/-- A string without a zero byte that is stored with one at its end. -/
theorem loadString_eq {s : List UInt8} (hs : 0 ∉ s) (hn : s.length < n)
    (h : m.load p (s.length + 1) = s ++ [0]) : m.loadString p n = s := by
  have hget : ∀ k < s.length + 1, (s ++ [0])[k]? = some (m (p + k)) := by
    intro k hk
    rw [← h, load, List.getElem?_map, List.getElem?_range hk, Option.map_some]
  clear h
  induction s generalizing p n with
  | nil =>
    obtain ⟨n, rfl⟩ := Nat.exists_eq_succ_of_ne_zero (Nat.ne_of_gt hn)
    have h0 := hget 0 (Nat.zero_lt_succ _)
    rw [loadString, if_pos (by simpa using h0.symm)]
  | cons b s ih =>
    obtain ⟨n, rfl⟩ := Nat.exists_eq_succ_of_ne_zero
      (Nat.ne_of_gt (Nat.lt_of_le_of_lt (Nat.zero_le _) hn))
    rw [List.mem_cons, not_or] at hs
    have h0 : m p = b := by simpa using (hget 0 (Nat.zero_lt_succ _)).symm
    rw [loadString, h0, if_neg (Ne.symm hs.1), ih hs.2 (by simpa using hn)]
    intro k hk
    have := hget (k + 1) (by simpa using hk)
    rwa [List.cons_append, List.getElem?_cons_succ, ← Nat.add_assoc, Nat.add_right_comm] at this

-- a proof about addresses that have been loaded does not compute the load
attribute [irreducible] load loadWord loadWords loadString

end ByteMem
end Lumen.Lib

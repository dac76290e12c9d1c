import LayerFs.Compare.Text

/-!
# Three-way line merge and conflict markers (`merge/text.rs`)

Lines of the base matched on both sides split the texts into chunks; a chunk changed on one side
takes that side, one changed identically on both takes either, and one changed differently on
both becomes a marker block.

* `merge3` — the merge of two texts against their base.
-/

namespace LayerFs

open List

/-- Opening marker prefix, `<<<<<<< `. -/
def openMarker : Line := [0x3C, 0x3C, 0x3C, 0x3C, 0x3C, 0x3C, 0x3C, 0x20]
/-- Separator line, `=======`. -/
def separator : Line := [0x3D, 0x3D, 0x3D, 0x3D, 0x3D, 0x3D, 0x3D]
/-- Closing marker prefix, `>>>>>>> `. -/
def closeMarker : Line := [0x3E, 0x3E, 0x3E, 0x3E, 0x3E, 0x3E, 0x3E, 0x20]

/-- One conflicting chunk. -/
structure Hunk where
  /-- output line (1-based) of the block's opening marker -/
  line : ℕ
  ours : List Line
  theirs : List Line
  deriving DecidableEq, Repr

/-- A merged text and the blocks that conflicted. -/
structure TextMerge where
  text : List ℕ
  hunks : List Hunk
  deriving DecidableEq, Repr

/-- Labels of ours and theirs, both strings. -/
structure Labels where
  ours : List ℕ
  theirs : List ℕ
  ours_text : utf8Valid ours = true
  theirs_text : utf8Valid theirs = true

/-- The merge so far: output lines, blocks, and the next line of each text. -/
structure MergeState where
  out : List Line := []
  hunks : List Hunk := []
  bi : ℕ := 0
  oi : ℕ := 0
  ti : ℕ := 0

/-- The lines `from..to`. -/
def slice (ls : List Line) (start stop : ℕ) : List Line := (ls.take stop).drop start

def markerBlock (labels : Labels) (ours theirs : List Line) : List Line :=
  (openMarker ++ labels.ours) :: ours ++ separator :: theirs ++ [closeMarker ++ labels.theirs]

def chunk (labels : Labels) (st : MergeState) (cb co ct : List Line) : MergeState :=
  if co = cb then { st with out := st.out ++ ct }
  else if ct = cb ∨ co = ct then { st with out := st.out ++ co }
  else { st with
    out := st.out ++ markerBlock labels co ct
    hunks := st.hunks ++ [⟨st.out.length + 1, co, ct⟩] }

/-- One base line: matched on both sides past what was merged, it ends a chunk. -/
def mergeLine (labels : Labels) (b o t : List Line) (mo mt : List (Option ℕ)) (st : MergeState)
    (k : ℕ) : MergeState :=
  match mo[k]?.join, mt[k]?.join with
  | some atO, some atT =>
    if atO < st.oi ∨ atT < st.ti then st
    else
      let merged := chunk labels st (slice b st.bi k) (slice o st.oi atO) (slice t st.ti atT)
      { merged with out := merged.out ++ slice b k (k + 1), bi := k + 1, oi := atO + 1, ti := atT + 1 }
  | _, _ => st

/-- Merges `ours` and `theirs` against `base`, line by line. -/
def merge3 (base ours theirs : List ℕ) (labels : Labels) : TextMerge :=
  let b := lines base
  let o := lines ours
  let t := lines theirs
  let st := (List.range b.length).foldl
    (mergeLine labels b o t (matchLines b o) (matchLines b t)) {}
  let last := chunk labels st (slice b st.bi b.length) (slice o st.oi o.length)
    (slice t st.ti t.length)
  ⟨joinLines last.out, last.hunks⟩

/-! ## Lines of the markers -/

theorem openMarker_newline : newline ∉ openMarker := by decide

theorem closeMarker_newline : newline ∉ closeMarker := by decide

theorem slice_subset {ls : List Line} {i j : ℕ} {l : Line} (h : l ∈ slice ls i j) : l ∈ ls :=
  mem_of_mem_take (mem_of_mem_drop h)

end LayerFs

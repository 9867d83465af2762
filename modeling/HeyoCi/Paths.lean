import Mathlib.Data.List.Infix
import HeyoCi.Submit.Objects

/-!
# Path patterns

* `matchSegment`: `*` and `?` within a segment, with one place to go back to;
* `matchSegments`: the segments of a path, `**` taking any number of them;
* `pathMatches`: whether a path is covered by a pattern.
-/

namespace HeyoCi.Paths

/-- The loop over a segment: the rest of the pattern and of the text, and where the last `*` is taken
up again, by the pattern behind it and the text it does not take. -/
def matchLoop : Nat → List Char → List Char → Option (List Char × List Char) → Bool
  | 0, _, _, _ => false
  -- trailing stars may match nothing
  | _ + 1, pat, [], _ => pat.all (· = '*')
  | n + 1, pat, c :: text, star =>
    let resume := match star with
      | some (pat, text) => matchLoop n pat text.tail (some (pat, text.tail))
      | none => false
    match pat with
    | '*' :: pat => matchLoop n pat (c :: text) (some (pat, c :: text))
    | '?' :: pat => matchLoop n pat text star
    | a :: pat => if a = c then matchLoop n pat text star else resume
    | [] => resume

/-- `match_segment`. Between two moves of the star the text is read once. -/
def matchSegment (pat text : String) : Bool :=
  let turns := (pat.length + 1) * (text.length + 2) * (text.length + 2)
  matchLoop turns pat.toList text.toList none

/-- `match_segments`. -/
def matchSegments : List String → List String → Bool
  | [], path => path.isEmpty
  | "**" :: pat, path => pat.isEmpty || path.tails.any (matchSegments pat)
  | first :: pat, head :: tail => matchSegment first head && matchSegments pat tail
  | _ :: _, [] => false

/-- The segments of a path without the `./` before it. -/
def segments (path : String) : List String :=
  ((Text.dropAll "./".toList path.length path.toList).splitOn '/').map String.ofList

/-- `matches`. -/
def pathMatches (pattern path : String) : Bool :=
  matchSegments (segments (Text.trim pattern)) (segments path)

example : pathMatches "packages/**/test/*.rs" "packages/a/b/test/x.rs" = true := by decide

example : pathMatches "*a*b*c" "xxaxxbxxd" = false := by decide

end HeyoCi.Paths

import HeyoCi.Paths.Dialect
import HeyoCi.Workflow.File

/-!
# Accepted patterns

* `Empties`: the segments that no path of a repository has;
* `RepoPath`, `CanMatch`: a path of a repository, and a pattern that covers one;
* `sample`, `takes_sample`: a segment that a segment of a pattern takes;
* `canMatch_iff`: what a pattern needs to cover some path;
* **`accepted_canMatch_iff`**: which accepted patterns do.
-/

namespace HeyoCi.Paths

/-- A segment that is in no path of a repository. -/
def Empties (s : String) : Prop := s = "" ∨ s = "." ∨ s = ".."

/-- A path as `git diff --name-only` prints it. -/
def RepoPath (path : String) : Prop := ∀ s ∈ between path.toList, ¬ Empties s

/-- The pattern covers some path of a repository. -/
def CanMatch (pattern : String) : Prop :=
  ∃ path, RepoPath path ∧ pathMatches pattern path = true

/-! ## Segments of a path -/

theorem between_intercalate {segs : List String} (hne : segs ≠ [])
    (h : ∀ s ∈ segs, '/' ∉ s.toList) :
    between (['/'].intercalate (segs.map String.toList)) = segs := by
  have hsep : ∀ cs ∈ segs.map String.toList, '/' ∉ cs := by
    intro cs hcs
    obtain ⟨s, hs, rfl⟩ := List.mem_map.mp hcs
    exact h s hs
  rw [between, List.splitOn_intercalate '/' hsep (by simpa using hne), List.map_map]
  conv_rhs => rw [← List.map_id segs]
  refine List.map_congr_left fun s _ => ?_
  rw [Function.comp_apply, String.ofList_toList, id]

/-- A path of a repository has no `./` before it. -/
theorem segments_of_repoPath {path : String} (h : RepoPath path) :
    segments path = between path.toList := by
  have hpre : ¬ "./".toList <+: path.toList := by
    rintro ⟨rest, hrest⟩
    have hfirst : "." ∈ between path.toList := by
      have hdot : '/' ∉ ['.'] := by decide
      rw [← hrest, between, show "./".toList ++ rest = ['.'] ++ '/' :: rest from rfl,
        List.splitOn_append_cons_self_of_not_mem hdot]
      exact List.mem_cons_self
    exact h "." hfirst (Or.inr (Or.inl rfl))
  rw [segments, Text.dropAll_eq_self hpre]
  rfl

theorem slash_notMem_of_segments {path s : String} (h : s ∈ segments path) : '/' ∉ s.toList := by
  obtain ⟨cs, hcs, rfl⟩ := List.mem_map.mp h
  rw [String.toList_ofList]
  exact Text.notMem_of_mem_splitOn hcs

/-! ## What a segment takes -/

/-- A pattern of letters takes itself only. -/
theorem eq_of_takes_empties {pat text : String} (hpat : Empties pat) (h : Takes pat text) :
    text = pat := by
  have hlist : text.toList = pat.toList := by
    rcases hpat with rfl | rfl | rfl
    · exact h
    · obtain ⟨rest, htext, rfl⟩ := h
      exact htext
    · obtain ⟨rest, htext, rest', rfl, rfl⟩ := h
      exact htext
  exact String.toList_inj.mp hlist

/-- The wildcards of a segment, each as a letter. -/
def sample (pat : String) : String :=
  String.ofList (pat.toList.map fun c => if c = '*' ∨ c = '?' then 'a' else c)

theorem matches_sample (cs : List Char) :
    Glob.Matches (cs.map piece) (cs.map fun c => if c = '*' ∨ c = '?' then 'a' else c) := by
  induction cs with
  | nil => rfl
  | cons c cs ih =>
    rw [List.map_cons, List.map_cons]
    by_cases hstar : c = '*'
    · subst hstar
      exact ⟨['a'], _, rfl, ih⟩
    by_cases hone : c = '?'
    · subst hone
      exact ⟨'a', _, rfl, ih⟩
    rw [piece_letter hstar hone, if_neg (by simp [hstar, hone])]
    exact ⟨_, rfl, ih⟩

theorem takes_sample (pat : String) : Takes pat (sample pat) := by
  rw [Takes, sample, String.toList_ofList]
  exact matches_sample pat.toList

/-- A letter that is no wildcard's stands where the segment has it. -/
theorem map_sample_eq {cs ds : List Char} (ha : 'a' ∉ ds)
    (h : cs.map (fun c => if c = '*' ∨ c = '?' then 'a' else c) = ds) : cs = ds := by
  rw [← h]
  conv_lhs => rw [← List.map_id cs]
  refine List.map_congr_left fun c hc => ?_
  rw [id, if_neg]
  intro hwild
  apply ha
  rw [← h]
  exact List.mem_map.mpr ⟨c, hc, if_pos hwild⟩

theorem not_empties_sample {pat : String} (h : ¬ Empties pat) : ¬ Empties (sample pat) := by
  have hback : ∀ e : String, 'a' ∉ e.toList → sample pat = e → pat = e := by
    intro e ha heq
    rw [← heq, sample, String.toList_ofList] at ha
    have hlist := congrArg String.toList heq
    rw [sample, String.toList_ofList] at hlist
    exact String.toList_inj.mp (map_sample_eq (hlist ▸ ha) hlist)
  rintro (he | he | he)
  · exact h (Or.inl (hback "" (by decide) he))
  · exact h (Or.inr (Or.inl (hback "." (by decide) he)))
  · exact h (Or.inr (Or.inr (hback ".." (by decide) he)))

theorem slash_notMem_sample {pat : String} (h : '/' ∉ pat.toList) : '/' ∉ (sample pat).toList := by
  rw [sample, String.toList_ofList]
  intro hmem
  obtain ⟨c, hc, heq⟩ := List.mem_map.mp hmem
  split_ifs at heq
  · cases heq
  · exact h (heq ▸ hc)

/-! ## Whole patterns -/

theorem divides_samples (pats : List String) : Glob.Divides Spans Takes pats (pats.map sample) := by
  induction pats with
  | nil => exact Glob.divides_nil.mpr rfl
  | cons p pats ih =>
    by_cases hp : Spans p
    · exact (Glob.divides_any hp).mpr ⟨_, List.suffix_cons _ _, ih⟩
    · exact (Glob.divides_one hp).mpr ⟨_, _, rfl, takes_sample p, ih⟩

/-- Every segment of a pattern takes an item, but those that take any number. -/
theorem takes_of_divides {pats items : List String} (h : Glob.Divides Spans Takes pats items)
    {p : String} (hp : p ∈ pats) : Spans p ∨ ∃ s ∈ items, Takes p s := by
  induction pats generalizing items with
  | nil => cases hp
  | cons q pats ih =>
    by_cases hq : Spans q
    · obtain ⟨rest, hsuffix, hrest⟩ := (Glob.divides_any hq).mp h
      rcases List.mem_cons.mp hp with rfl | hp
      · exact Or.inl hq
      · exact (ih hrest hp).imp_right fun ⟨s, hs, htakes⟩ => ⟨s, hsuffix.mem hs, htakes⟩
    · obtain ⟨s, rest, rfl, htakes, hrest⟩ := (Glob.divides_one hq).mp h
      rcases List.mem_cons.mp hp with rfl | hp
      · exact Or.inr ⟨s, List.mem_cons_self, htakes⟩
      · exact (ih hrest hp).imp_right fun ⟨t, ht, htakes⟩ => ⟨t, List.mem_cons_of_mem _ ht, htakes⟩

/-- A pattern covers some path if and only if a path could have every segment of it. -/
theorem canMatch_iff {pattern : String} :
    CanMatch pattern ↔ ∀ s ∈ segments (Text.trim pattern), ¬ Empties s := by
  constructor
  · rintro ⟨path, hpath, hmatch⟩ s hs hempty
    rw [pathMatches, matchSegments_iff, segments_of_repoPath hpath] at hmatch
    rcases takes_of_divides hmatch hs with hspans | ⟨t, ht, htakes⟩
    · rw [show s = "**" from hspans] at hempty
      exact absurd hempty (by simp [Empties])
    · rw [eq_of_takes_empties hempty htakes] at ht
      exact hpath s ht hempty
  · intro hsegs
    set pats := segments (Text.trim pattern) with hpats
    have hne : pats.map sample ≠ [] := by
      rw [hpats, segments, List.map_map, ne_eq, List.map_eq_nil_iff]
      exact List.splitOn_ne_nil _ _
    have hslash : ∀ s ∈ pats.map sample, '/' ∉ s.toList := by
      intro s hs
      obtain ⟨p, hp, rfl⟩ := List.mem_map.mp hs
      exact slash_notMem_sample (slash_notMem_of_segments hp)
    have hrepo : RepoPath (String.ofList (['/'].intercalate
        ((pats.map sample).map String.toList))) := by
      rw [RepoPath, String.toList_ofList, between_intercalate hne hslash]
      intro s hs
      obtain ⟨p, hp, rfl⟩ := List.mem_map.mp hs
      exact not_empties_sample (hsegs p hp)
    refine ⟨_, hrepo, ?_⟩
    rw [pathMatches, matchSegments_iff, segments_of_repoPath hrepo, String.toList_ofList,
      between_intercalate hne hslash]
    exact divides_samples pats

/-- **An accepted pattern covers some path if and only if no segment of it, trimmed and less the `./`
before it, is empty, `.` or `..`.** -/
theorem accepted_canMatch_iff (pattern : String) :
    (validate pattern = .ok () → CanMatch pattern) ↔
      (validate pattern = .ok () → ∀ s ∈ segments (Text.trim pattern), ¬ Empties s) :=
  imp_congr_right fun _ => canMatch_iff

theorem directory_never_matches :
    ¬ ∀ pattern, validate pattern = .ok () → CanMatch pattern := by
  intro hall
  have hbad := canMatch_iff.mp (hall "packages/api/" (by decide)) ""
  exact hbad (by decide) (Or.inl rfl)

end HeyoCi.Paths

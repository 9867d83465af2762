import HeyoCi.Lib.Spans
import HeyoCi.Steps.Masker

/-!
# What the masker covers

* `covers`: the positions inside of any occurrence of a value, overlapping ones included; `covers_iff`;
* `Masked`: a text in which every longest run of covered positions is one marker or more, and all else
  is as it was;
* `taken`: the occurrences that the masker replaces; `Unhit`, `Tiled`: no value is found in a marker, and
  no covered position is left;
* `spansCovered_taken`, `mask_eq_shown`: what is replaced, and what is shown;
* **`masked_iff`**: when the masker covers every occurrence.
-/

namespace HeyoCi.Masker

open Words

/-- A position lies inside of an occurrence of a value. -/
def covers (values : List (List Char)) (text : List Char) (i : Nat) : Bool :=
  values.any fun v => (List.range (i + 1)).any fun s =>
    v.isPrefixOf (text.drop s) && decide (i < s + v.length)

theorem covers_iff {values : List (List Char)} {text : List Char} {i : Nat} :
    covers values text i = true ↔
      ∃ v ∈ values, ∃ s t, text = s ++ (v ++ t) ∧ s.length ≤ i ∧ i < s.length + v.length := by
  simp only [covers, List.any_eq_true, List.mem_range, Bool.and_eq_true, decide_eq_true_eq,
    List.isPrefixOf_iff_prefix]
  constructor
  · rintro ⟨v, hv, s, hs, ⟨t, ht⟩, hi⟩
    have hle : s ≤ text.length := by
      by_contra hlt
      rw [List.drop_eq_nil_of_le (by omega)] at ht
      obtain ⟨rfl, -⟩ := List.append_eq_nil_iff.mp ht
      rw [List.length_nil] at hi
      omega
    have hlen : (text.take s).length = s := by
      rw [List.length_take]
      omega
    refine ⟨v, hv, text.take s, t, ?_, by omega, by omega⟩
    rw [ht, List.take_append_drop]
  · rintro ⟨v, hv, s, t, rfl, hs, hi⟩
    refine ⟨v, hv, s.length, by omega, ?_, hi⟩
    rw [List.drop_left]
    exact List.prefix_append v t

/-- The values that are long enough to be masked. -/
def longValues (values : List String) : List (List Char) :=
  (values.filter fun v => minMaskLen ≤ v.utf8ByteSize).map String.toList

/-- The values in the order in which they are masked. -/
def ordered (values : List String) : List (List Char) := (new values).values.map String.toList

/-- The positions of a text that some value covers are one marker or more in every longest run of
them, and the other positions are as they were. -/
def Masked (values : List String) (text out : String) : Prop :=
  Redacts redacted.toList (regions (flagged (covers (longValues values) text.toList) 0 text.toList))
    out.toList

/-- The occurrences that are replaced: of one value after the other, from the left, those that have no
position in common with one that is replaced already. -/
def taken (values : List String) (text : String) : List (Block Char) :=
  takeAll (ordered values) (letters text.toList)

/-- No value is found where a marker is that the values before it have left. -/
def Unhit (values : List String) (text : String) : Prop :=
  ∀ pre v post, ordered values = pre ++ v :: post →
    ¬ Touches redacted.toList v (takeAll pre (letters text.toList))

/-- Every covered position belongs to an occurrence that is replaced. -/
def Tiled (values : List String) (text : String) : Prop :=
  LettersUncovered (covers (longValues values) text.toList) 0 (taken values text)

variable {values : List String} {text : String}

theorem mem_ordered {v : List Char} : v ∈ ordered values ↔ v ∈ longValues values := by
  simp only [ordered, longValues, List.mem_map, List.mem_filter, mem_new, decide_eq_true_eq]

theorem ordered_ne_nil : ∀ v ∈ ordered values, v ≠ [] := by
  intro v hv hnil
  obtain ⟨s, hs, rfl⟩ := List.mem_map.mp hv
  have hempty : s = "" := by rw [← String.ofList_toList (s := s), hnil]
  have hlen := (mem_new.mp hs).2
  rw [hempty] at hlen
  exact absurd hlen (by decide)

theorem sourceOf_taken : sourceOf (taken values text) = text.toList := by
  rw [taken, sourceOf_takeAll ordered_ne_nil, sourceOf_letters]

/-- What is replaced is covered. -/
theorem spansCovered_taken :
    SpansCovered (covers (longValues values) text.toList) 0 (taken values text) := by
  intro pre w post hbs
  have hmem : .span w ∈ taken values text := hbs ▸ by simp
  have hw : w ∈ ordered values := by
    refine (span_of_mem_takeAll ordered_ne_nil hmem).resolve_right fun hletter => ?_
    obtain ⟨c, -, hc⟩ := List.mem_map.mp hletter
    cases hc
  refine ⟨ordered_ne_nil w hw, fun j hj => ?_⟩
  have htext : text.toList = sourceOf pre ++ (w ++ sourceOf post) := by
    rw [← sourceOf_taken, hbs, sourceOf_append]
    rfl
  exact covers_iff.mpr ⟨w, mem_ordered.mp hw, sourceOf pre, sourceOf post, htext, by omega, by omega⟩

/-- **Where no value is found in a marker, the masker shows what it takes.** -/
theorem mask_eq_shown (h : Unhit values text) :
    ((new values).mask text).toList = shown redacted.toList (taken values text) := by
  have hshown := shown_takeAll (by decide : redacted.toList ≠ []) ordered_ne_nil h
  rw [shown_letters] at hshown
  rw [mask, String.toList_ofList]
  exact hshown

/-- Values without a star are in no marker. -/
theorem unhit_of_starless (hstar : ∀ v ∈ longValues values, '*' ∉ v) : Unhit values text := by
  intro pre v post hv
  have hmem : v ∈ ordered values := hv ▸ by simp
  refine not_touches_of_avoids (ordered_ne_nil v hmem) (by decide) fun c hc hc' => ?_
  have : c = '*' := by simpa [redacted] using hc'
  exact hstar v (mem_ordered.mp hmem) (this ▸ hc)

/-- A marker is made of stars. -/
theorem redacted_stars : ∀ x ∈ redacted.toList, decide (x ≠ '*') = false := by
  simp [redacted]

/-- A covered letter is a letter of a value. -/
theorem mem_of_covers {cs ds : List Char} {x : Char} {vs : List (List Char)}
    (h : covers vs (cs ++ x :: ds) cs.length = true) : ∃ v ∈ vs, x ∈ v := by
  obtain ⟨v, hv, s, t, heq, hs, hi⟩ := covers_iff.mp h
  refine ⟨v, hv, ?_⟩
  have hlt : cs.length - s.length < v.length := by omega
  have hleft : (cs ++ x :: ds)[cs.length]? = some x := by simp
  have hright : (s ++ (v ++ t))[cs.length]? = some v[cs.length - s.length] := by
    rw [List.getElem?_append_right hs, List.getElem?_append_left hlt]
    exact List.getElem?_eq_getElem hlt
  rw [heq, hright, Option.some.injEq] at hleft
  exact hleft ▸ List.getElem_mem hlt

/-- **The masker covers every occurrence if no value is found in a marker and every covered position
belongs to an occurrence that is replaced; where no value has a star in it, only then.** -/
theorem masked_iff (values : List String) (text : String) :
    (Unhit values text → Tiled values text → Masked values text ((new values).mask text)) ∧
    ((∀ v ∈ longValues values, '*' ∉ v) →
      (Masked values text ((new values).mask text) ↔ Tiled values text)) := by
  have hsource : sourceOf (taken values text) = text.toList := sourceOf_taken
  have hmasked : Unhit values text → Tiled values text →
      Masked values text ((new values).mask text) := by
    intro hunhit htiled
    have hredacts : Redacts redacted.toList _ (shown redacted.toList (taken values text)) :=
      redacts_of_uncovered spansCovered_taken htiled
    rwa [hsource, ← mask_eq_shown hunhit] at hredacts
  refine ⟨hmasked, fun hstar => ⟨fun h => ?_, hmasked (unhit_of_starless hstar)⟩⟩
  have hletters : ∀ pre x post, taken values text = pre ++ .letter x :: post →
      covers (longValues values) text.toList (0 + (sourceOf pre).length) = true →
      decide (x ≠ '*') = true := by
    intro pre x post hbs hcovered
    have htext : text.toList = sourceOf pre ++ x :: sourceOf post := by
      rw [← hsource, hbs, sourceOf_append]
      rfl
    rw [Nat.zero_add, htext] at hcovered
    obtain ⟨v, hv, hx⟩ := mem_of_covers hcovered
    rw [decide_eq_true_eq]
    rintro rfl
    exact hstar v hv hx
  apply uncovered_of_redacts redacted_stars spansCovered_taken hletters
  rw [hsource, ← mask_eq_shown (unhit_of_starless hstar)]
  exact h

theorem overlap_shown : ¬ Masked ["abcd", "cdef"] "abcdef" ((new ["abcd", "cdef"]).mask "abcdef") := by
  intro h
  exact absurd (h.countP_eq redacted_stars) (by decide)

end HeyoCi.Masker

import HeyoCi.Lib.Choice
import HeyoCi.Lib.Loop
import HeyoCi.Plan.Matrix
import HeyoCi.Plan.Members

/-!
# The matrix, as it is described elsewhere

The code cites the rules of another service for `exclude:` and `include:`. Here they are.

* `combinations`, `Cells`, `expansion`: the combinations of the axes, what is excluded from them, and
  what is included into each; an entry goes by the values a combination had from its axes;
* `Follows`: the code gives these combinations, in some order;
* `Cells.Fair`, `Fair`: no entry meets what an earlier entry has added;
* `includeInto_fair`, `fair_of_perm`: then one entry does the same, and only then;
* **`expandMatrix_follows`**: where the code follows the rules.
-/

namespace HeyoCi

open Json.Obj

/-! ## The rules -/

/-- One value for every axis. -/
def choices : List (String × List Json) → List (List (String × Json))
  | [] => [[]]
  | (name, values) :: axes => values.flatMap fun v => (choices axes).map ((name, v) :: ·)

/-- The combinations of the axes: none where there is no axis. -/
def combinations (axes : List (String × List Json)) : List Json.Obj :=
  if axes = [] then [] else (choices axes).map (Json.Obj.extend [])

/-- The combinations, each with its values from the axes and with those it has now, and the entries of
`include:` that are combinations of their own. -/
structure Cells where
  cells : List (Json.Obj × Json.Obj)
  added : List Json.Obj

namespace Cells

variable (s : Cells)

/-- All combinations. -/
def combos : List Json.Obj := s.cells.map Prod.snd ++ s.added

/-- An entry of `include:` goes into every combination of which it overwrites no value of an axis. -/
def addEntry (e : Json.Obj) : Cells :=
  if s.cells.any fun c => keeps c.1 e then
    { s with cells := s.cells.map fun c => if keeps c.1 e then (c.1, Json.Obj.extend c.2 e) else c }
  else { s with added := s.added ++ [e] }

/-- **An entry is fair**: what earlier entries have added to a combination does not keep it out, and a
combination of its own takes nothing from it. -/
structure Fair (e : Json.Obj) : Prop where
  cells : ∀ c ∈ s.cells, keeps c.1 e = true → keeps c.2 e = true
  added : ∀ a ∈ s.added, keeps a e = true → (∃ c ∈ s.cells, keeps c.1 e = true) ∧ has a e = true

instance Fair.decidable (e : Json.Obj) : Decidable (s.Fair e) :=
  decidable_of_iff ((∀ c ∈ s.cells, keeps c.1 e = true → keeps c.2 e = true) ∧
    ∀ a ∈ s.added, keeps a e = true → (∃ c ∈ s.cells, keeps c.1 e = true) ∧ has a e = true)
    ⟨fun h => ⟨h.1, h.2⟩, fun h => ⟨h.cells, h.added⟩⟩

/-- The entries are fair, one after the other. -/
def AllFair : Cells → List Json.Obj → Prop
  | _, [] => True
  | s, e :: es => s.Fair e ∧ AllFair (s.addEntry e) es

instance AllFair.decidable : ∀ s es, Decidable (AllFair s es)
  | _, [] => isTrue trivial
  | s, e :: es => @instDecidableAnd _ _ _ (AllFair.decidable (s.addEntry e) es)

end Cells

namespace MatrixParts

variable (parts : MatrixParts)

/-- The axes by their names. -/
def sortedAxes : List (String × List Json) := parts.axes.insertionSort fun a b => a.1 ≤ b.1

/-- The combinations that are not excluded: an entry of `exclude:` is one with all its values. -/
def remaining : List Json.Obj :=
  (combinations parts.sortedAxes).filter fun o => !parts.excluded.any (has o)

/-- Before `include:`. -/
def cells : Cells := ⟨parts.remaining.map fun o => (o, o), []⟩

/-- **The combinations of a matrix**, if there is one. -/
def expansion : Option (List Json.Obj) :=
  let combos := (parts.included.foldl Cells.addEntry parts.cells).combos
  if combos.isEmpty then none else some combos

/-- The same combinations in some order, or an error where there is none. -/
def Follows (r : Except PlanError (List Json.Obj)) : Prop :=
  Option.Rel List.Perm r.toOption parts.expansion

/-- The matrix with the first entries of its `include:`. -/
def upTo (n : Nat) : MatrixParts := { parts with included := parts.included.take n }

/-- **A matrix is fair**: every entry of `include:` is, and an entry of `exclude:` that is at odds with
no value of a combination has all its values there, or another one does. Without axes there has to be
something to start with, and an axis without values leaves nothing to include into. -/
def Fair : Prop :=
  if parts.axes = [] then
    (parts.excluded = [] → parts.included ≠ []) ∧ parts.cells.AllFair parts.included
  else if ∃ axis ∈ parts.axes, axis.2 = [] then parts.included = []
  else (∀ o ∈ combinations parts.sortedAxes,
      parts.excluded.any (keeps o) = true → parts.excluded.any (has o) = true) ∧
    parts.cells.AllFair parts.included

instance Fair.decidable : Decidable parts.Fair := by
  unfold Fair
  infer_instance

end MatrixParts

/-- What `expand_matrix` does with the parts of a matrix. -/
def expandParts (jobId : String) (parts : MatrixParts) : Except PlanError (List Json.Obj) := do
  let combos ← product jobId parts.sortedAxes [[]]
  let combos := parts.included.foldl includeInto (excludeFrom parts.excluded combos)
  if combos.isEmpty then .error (.emptyMatrix jobId) else .ok combos

theorem expandMatrix_eq {Y : Type} {y : YamlCrate Y} {jobId : String} {job : Job Y} {mtx : Y}
    {parts : MatrixParts} (hm : job.strategy.bind (·.mtx) = some mtx)
    (hparts : readMatrix y jobId mtx = .ok parts) :
    expandMatrix y jobId job = expandParts jobId parts := by
  unfold expandMatrix
  simp only [hm, hparts]
  rfl

/-! ## One entry -/

theorem matchesSubset_eq (o e : Json.Obj) : matchesSubset o e = keeps o e := by
  unfold matchesSubset keeps
  congr 1
  funext ⟨k, v⟩
  cases h : Json.Obj.get o k <;> simp [h]

namespace Cells

/-- The values of the axes are still there, and what was added on its own is told from every combination
by one of them. -/
structure Grown (s : Cells) : Prop where
  axes : ∀ c ∈ s.cells, Keyed c.1
  keeps : ∀ c ∈ s.cells, ∀ k w, get c.1 k = some w → get c.2 k = some w
  apart : ∀ c ∈ s.cells, ∀ a ∈ s.added, ∃ k v w, get c.1 k = some w ∧ get a k = some v ∧ v ≠ w
  keyed : ∀ a ∈ s.added, Keyed a

variable {s : Cells} {e : Json.Obj}

theorem keeps_axes (h : s.Grown) {c : Json.Obj × Json.Obj} (hc : c ∈ s.cells)
    (hk : Json.Obj.keeps c.2 e = true) : Json.Obj.keeps c.1 e = true := by
  rw [keeps_iff] at hk ⊢
  exact fun k v hkv w hw => hk k v hkv w (h.keeps c hc k w hw)

theorem Grown.addEntry (h : s.Grown) (he : Keyed e) : (s.addEntry e).Grown := by
  unfold Cells.addEntry
  split_ifs with hany
  · have hsame : ∀ c : Json.Obj × Json.Obj,
        (if Json.Obj.keeps c.1 e then (c.1, Json.Obj.extend c.2 e) else c).1 = c.1 := fun c => by
      split_ifs <;> rfl
    refine ⟨fun c hc => ?_, fun c hc k w hw => ?_, fun c hc a ha => ?_, h.keyed⟩
    · obtain ⟨c, hmem, rfl⟩ := List.mem_map.mp hc
      rw [hsame]
      exact h.axes c hmem
    · obtain ⟨c, hmem, rfl⟩ := List.mem_map.mp hc
      split_ifs at hw ⊢ with hk
      · refine get_extend (h.keeps c hmem k w hw) fun v hv => ?_
        exact (keeps_iff.mp hk k v hv w hw).symm
      · exact h.keeps c hmem k w hw
    · obtain ⟨c, hmem, rfl⟩ := List.mem_map.mp hc
      rw [hsame]
      exact h.apart c hmem a ha
  · refine ⟨h.axes, h.keeps, fun c hc a ha => ?_, fun a ha => ?_⟩
    · rcases List.mem_append.mp ha with ha | ha
      · exact h.apart c hc a ha
      · rw [List.mem_singleton.mp ha]
        have hclash : Json.Obj.keeps c.1 e = false := by
          simpa using fun hk => hany (List.any_eq_true.mpr ⟨c, hc, hk⟩)
        obtain ⟨k, v, w, hkv, hw, hne⟩ := keeps_eq_false_iff.mp hclash
        exact ⟨k, v, w, hw, get_of_mem he.nodup hkv, hne.symm⟩
    · rcases List.mem_append.mp ha with ha | ha
      · exact h.keyed a ha
      · rw [List.mem_singleton.mp ha]
        exact he

/-- What the code makes of a combination. -/
def grow (e x : Json.Obj) : Json.Obj := if Json.Obj.keeps x e then Json.Obj.extend x e else x

/-- What the rules make of it. -/
def grown (e : Json.Obj) (c : Json.Obj × Json.Obj) : Json.Obj :=
  if Json.Obj.keeps c.1 e then Json.Obj.extend c.2 e else c.2

theorem includeInto_eq (combos : List Json.Obj) : includeInto combos e =
    if combos.any (Json.Obj.keeps · e) then combos.map (grow e) else combos ++ [e] := by
  unfold includeInto grow
  simp only [matchesSubset_eq]

theorem combos_addEntry : (s.addEntry e).combos =
    if s.cells.any fun c => Json.Obj.keeps c.1 e then s.cells.map (grown e) ++ s.added
    else s.combos ++ [e] := by
  unfold Cells.addEntry
  split_ifs
  · rw [combos, List.map_map]
    congr 1
    refine List.map_congr_left fun c _ => ?_
    simp only [grown, Function.comp]
    split_ifs <;> rfl
  · exact (List.append_assoc _ _ _).symm

theorem map_grow_combos :
    s.combos.map (grow e) = s.cells.map (fun c => grow e c.2) ++ s.added.map (grow e) := by
  rw [combos, List.map_append, List.map_map]
  rfl

/-- An entry that nothing keeps out of a combination makes of it what the rules do. -/
theorem map_grow_cells (h : s.Grown)
    (hcells : ∀ c ∈ s.cells, Json.Obj.keeps c.1 e = true → Json.Obj.keeps c.2 e = true) :
    s.cells.map (fun c => grow e c.2) = s.cells.map (grown e) := by
  refine List.map_congr_left fun c hc => ?_
  have hsame : Json.Obj.keeps c.2 e = Json.Obj.keeps c.1 e :=
    Bool.eq_iff_iff.mpr ⟨keeps_axes h hc, hcells c hc⟩
  rw [grow, grown, hsame]

/-- **A fair entry does what the rules say.** -/
theorem includeInto_fair (h : s.Grown) (hfair : s.Fair e) :
    includeInto s.combos e = (s.addEntry e).combos := by
  have hadded : s.added.map (grow e) = s.added := by
    refine (List.map_congr_left fun a ha => ?_).trans (List.map_id _)
    unfold grow
    split_ifs with hk
    · exact extend_of_has (h.keyed a ha) (hfair.added a ha hk).2
    · rfl
  have hmatch : s.combos.any (Json.Obj.keeps · e) = s.cells.any fun c => Json.Obj.keeps c.1 e := by
    rw [Bool.eq_iff_iff, List.any_eq_true, List.any_eq_true]
    constructor
    · rintro ⟨x, hx, hk⟩
      rcases List.mem_append.mp hx with hx | hx
      · obtain ⟨c, hc, rfl⟩ := List.mem_map.mp hx
        exact ⟨c, hc, keeps_axes h hc hk⟩
      · exact (hfair.added x hx hk).1
    · rintro ⟨c, hc, hk⟩
      exact ⟨c.2, List.mem_append_left _ (List.mem_map_of_mem hc), hfair.cells c hc hk⟩
  rw [includeInto_eq, combos_addEntry, hmatch, map_grow_combos, map_grow_cells h hfair.cells, hadded]

/-- What a combination has of its own, an entry does not take away. -/
theorem apart_grow (h : s.Grown) {c : Json.Obj × Json.Obj} (hc : c ∈ s.cells) {a : Json.Obj}
    (ha : a ∈ s.added) : has a c.1 = false ∧ has (grow e a) c.1 = false := by
  obtain ⟨k, v, w, hw, hv, hne⟩ := h.apart c hc a ha
  have hout : ∀ x, get x k = some v → has x c.1 = false := by
    intro x hx
    rw [← Bool.not_eq_true, has_iff]
    intro hall
    rw [hall k w (mem_of_get hw)] at hx
    exact hne (Option.some.inj hx).symm
  refine ⟨hout a hv, hout _ ?_⟩
  unfold grow
  split_ifs with hk
  · exact get_extend_of_keeps hk hv
  · exact hv

/-- A combination that has an entry got it by the rules. -/
theorem grow_eq_grown (h : s.Grown) {c : Json.Obj × Json.Obj} (hc : c ∈ s.cells)
    (hhas : has (grow e c.2) e = true) : grow e c.2 = grown e c := by
  have hk : Json.Obj.keeps c.2 e = true := by
    by_contra hk
    rw [grow, if_neg hk] at hhas
    exact hk (keeps_of_has hhas)
  rw [grow, grown, if_pos hk, if_pos (keeps_axes h hc hk)]

/-- The rules leave a combination the values of its axes. -/
theorem has_axes (h : s.Grown) {c : Json.Obj × Json.Obj} (hc : c ∈ s.cells)
    (hk : Json.Obj.keeps c.1 e = true) : has (Json.Obj.extend c.2 e) c.1 = true := by
  rw [has_iff]
  intro k w hkw
  have hw := get_of_mem (h.axes c hc).nodup hkw
  exact get_extend (h.keeps c hc k w hw) fun v hv => (keeps_iff.mp hk k v hv w hw).symm

/-- An entry that a combination has no room for differs from what the rules say. -/
theorem cells_of_perm (h : s.Grown) (he : Keyed e)
    (hperm : (includeInto s.combos e).Perm (s.addEntry e).combos) :
    ∀ c ∈ s.cells, Json.Obj.keeps c.1 e = true → Json.Obj.keeps c.2 e = true := by
  intro c hc hkeeps
  by_contra hk
  have hany : (s.cells.any fun c => Json.Obj.keeps c.1 e) = true :=
    List.any_eq_true.mpr ⟨c, hc, hkeeps⟩
  rw [includeInto_eq, combos_addEntry, if_pos hany] at hperm
  split_ifs at hperm
  · -- combinations with the values of this one and of the entry: the rules make one of it
    have hcount := hperm.countP_eq fun x => has x c.1 && has x e
    have hadded : s.added.countP (fun x => has x c.1 && has x e) = 0 :=
      List.countP_eq_zero.mpr fun a ha => by simp [(@apart_grow s e h c hc a ha).1]
    have hgrow : (s.added.map (grow e)).countP (fun x => has x c.1 && has x e) = 0 := by
      rw [List.countP_map]
      exact List.countP_eq_zero.mpr fun a ha => by simp [(apart_grow h hc ha).2]
    have hlt : (s.cells.map fun c => grow e c.2).countP (fun x => has x c.1 && has x e) <
        (s.cells.map (grown e)).countP fun x => has x c.1 && has x e := by
      rw [List.countP_map, List.countP_map]
      refine Choice.countP_lt (fun d hd hq => ?_) hc ?_ ?_
      · simp only [Function.comp, Bool.and_eq_true] at hq ⊢
        rw [← grow_eq_grown h hd hq.2]
        exact hq
      · simp only [Function.comp, grow, if_neg hk, Bool.and_eq_false_iff]
        exact Or.inr (Bool.not_eq_true _ ▸ fun hhas => hk (keeps_of_has hhas))
      · simp only [Function.comp, grown, if_pos hkeeps, Bool.and_eq_true]
        exact ⟨has_axes h hc hkeeps, has_extend he.nodup⟩
    rw [map_grow_combos, List.countP_append, List.countP_append, hadded, hgrow] at hcount
    omega
  · have hlength := hperm.length_eq
    simp only [combos, List.length_append, List.length_map, List.length_singleton] at hlength
    omega

theorem fair_of_perm (h : s.Grown) (he : Keyed e)
    (hperm : (includeInto s.combos e).Perm (s.addEntry e).combos) : s.Fair e := by
  have hcells := cells_of_perm h he hperm
  refine ⟨hcells, fun a ha hk => ?_⟩
  have hcode : (s.combos.any (Json.Obj.keeps · e)) = true :=
    List.any_eq_true.mpr ⟨a, List.mem_append_right _ ha, hk⟩
  rw [includeInto_eq, combos_addEntry, if_pos hcode] at hperm
  split_ifs at hperm with hany
  · rw [List.any_eq_true] at hany
    refine ⟨hany, ?_⟩
    rw [map_grow_combos, map_grow_cells h hcells, List.perm_append_left_iff] at hperm
    by_contra hhas
    have hlt : s.added.countP (has · e) < (s.added.map (grow e)).countP (has · e) := by
      rw [List.countP_map]
      refine Choice.countP_lt (fun d hd hq => ?_) ha ?_ ?_
      · simp only [Function.comp, grow, if_pos (keeps_of_has hq)]
        exact has_extend he.nodup
      · exact Bool.not_eq_true _ ▸ hhas
      · simp only [Function.comp, grow, if_pos hk]
        exact has_extend he.nodup
    rw [hperm.countP_eq] at hlt
    exact Nat.lt_irrefl _ hlt
  · have hlength := hperm.length_eq
    rw [List.length_append, List.length_map, List.length_singleton] at hlength
    omega

/-! ## All entries -/

/-- **Fair entries do what the rules say.** -/
theorem foldl_fair {es : List Json.Obj} (h : s.Grown) (hes : ∀ e ∈ es, Keyed e) (hfair : s.AllFair es) :
    es.foldl includeInto s.combos = (es.foldl Cells.addEntry s).combos := by
  induction es generalizing s with
  | nil => rfl
  | cons e es ih =>
    obtain ⟨he, hes'⟩ := hfair
    rw [List.foldl_cons, List.foldl_cons, includeInto_fair h he]
    exact ih (h.addEntry (hes e (by simp))) (fun d hd => hes d (List.mem_cons_of_mem e hd)) hes'

/-- Entries that do what the rules say, one after the other, are fair. -/
theorem allFair_of_perm {es : List Json.Obj} (h : s.Grown) (hes : ∀ e ∈ es, Keyed e)
    (hperm : ∀ n, ((es.take n).foldl includeInto s.combos).Perm
      ((es.take n).foldl Cells.addEntry s).combos) : s.AllFair es := by
  induction es generalizing s with
  | nil => trivial
  | cons e es ih =>
    have he := hes e (by simp)
    have hfair := fair_of_perm h he (by simpa using hperm 1)
    refine ⟨hfair, ih (h.addEntry he) (fun d hd => hes d (List.mem_cons_of_mem e hd)) fun n => ?_⟩
    have htail := hperm (n + 1)
    rwa [List.take_succ_cons, List.foldl_cons, List.foldl_cons, includeInto_fair h hfair] at htail

theorem length_foldl_le (combos es : List Json.Obj) :
    (es.foldl includeInto combos).length ≤ combos.length + es.length := by
  induction es generalizing combos with
  | nil => simp
  | cons e es ih =>
    have hone : (includeInto combos e).length ≤ combos.length + 1 := by
      rw [includeInto_eq]
      split_ifs <;> simp
    have hrest := ih (includeInto combos e)
    rw [List.foldl_cons, List.length_cons]
    omega

/-- Without combinations of axes, an entry is a combination of its own. -/
theorem addEntry_of_nil (e : Json.Obj) (added : List Json.Obj) :
    (⟨[], added⟩ : Cells).addEntry e = ⟨[], added ++ [e]⟩ := rfl

theorem combos_foldl_of_nil (es added : List Json.Obj) :
    (es.foldl Cells.addEntry ⟨[], added⟩).combos = added ++ es := by
  induction es generalizing added with
  | nil => simp [combos]
  | cons e es ih => rw [List.foldl_cons, addEntry_of_nil, ih, List.append_assoc]; rfl

/-- Entries that all are combinations of their own are fair. -/
theorem allFair_of_length {es added : List Json.Obj}
    (h : added.length + es.length ≤ (es.foldl includeInto added).length) :
    (⟨[], added⟩ : Cells).AllFair es := by
  induction es generalizing added with
  | nil => trivial
  | cons e es ih =>
    rw [List.foldl_cons] at h
    have hle := length_foldl_le (includeInto added e) es
    rw [List.length_cons] at h
    have hnew : ∀ a ∈ added, ¬ Json.Obj.keeps a e = true := by
      intro a ha hk
      have hmerged : (includeInto added e).length = added.length := by
        rw [includeInto_eq, if_pos (List.any_eq_true.mpr ⟨a, ha, hk⟩), List.length_map]
      rw [hmerged] at hle
      omega
    have happend : includeInto added e = added ++ [e] := by
      rw [includeInto_eq, if_neg]
      rw [List.any_eq_true]
      rintro ⟨a, ha, hk⟩
      exact hnew a ha hk
    refine ⟨⟨by simp, fun a ha hk => absurd hk (hnew a ha)⟩, ?_⟩
    rw [addEntry_of_nil]
    apply ih
    rw [happend] at h
    rw [List.length_append, List.length_singleton]
    omega

/-- **Without combinations of axes**, the entries are the combinations if and only if they are fair. -/
theorem perm_iff_of_nil {es added : List Json.Obj} (hadded : ∀ a ∈ added, Keyed a)
    (hes : ∀ e ∈ es, Keyed e) :
    (es.foldl includeInto added).Perm (added ++ es) ↔ (⟨[], added⟩ : Cells).AllFair es := by
  constructor
  · intro hperm
    apply allFair_of_length
    rw [hperm.length_eq, List.length_append]
  · intro hfair
    have hgrown : (⟨[], added⟩ : Cells).Grown := ⟨by simp, by simp, by simp, hadded⟩
    have hfold := foldl_fair hgrown hes hfair
    rw [combos_foldl_of_nil] at hfold
    have hstart : (⟨[], added⟩ : Cells).combos = added := rfl
    rw [hstart] at hfold
    rw [hfold]

end Cells

/-! ## The combinations of the axes -/

theorem choices_of_empty {axes : List (String × List Json)} (h : ∃ axis ∈ axes, axis.2 = []) :
    choices axes = [] := by
  induction axes with
  | nil => simp at h
  | cons axis axes ih =>
    obtain ⟨name, values⟩ := axis
    rw [choices]
    by_cases hvalues : values = []
    · rw [hvalues]
      rfl
    · have hrest : ∃ axis ∈ axes, axis.2 = [] := by simpa [hvalues] using h
      rw [ih hrest]
      simp

theorem product_of_empty {jobId : String} {axes : List (String × List Json)}
    (h : ∃ axis ∈ axes, axis.2 = []) (combos : List Json.Obj) :
    (product jobId axes combos).toOption = none := by
  induction axes generalizing combos with
  | nil => simp at h
  | cons axis axes ih =>
    obtain ⟨name, values⟩ := axis
    rw [product]
    by_cases hvalues : values = []
    · rw [hvalues]
      rfl
    · have hrest : ∃ axis ∈ axes, axis.2 = [] := by simpa [hvalues] using h
      rw [if_neg (by simpa using hvalues)]
      exact ih hrest _

/-- **The code's combinations** are one value for every axis. -/
theorem product_eq {jobId : String} {axes : List (String × List Json)}
    (h : ∀ axis ∈ axes, axis.2 ≠ []) (combos : List Json.Obj) : product jobId axes combos =
      .ok (combos.flatMap fun base => (choices axes).map (Json.Obj.extend base)) := by
  induction axes generalizing combos with
  | nil => simp [product, choices, Json.Obj.extend]
  | cons axis axes ih =>
    obtain ⟨name, values⟩ := axis
    have hvalues : values ≠ [] := h (name, values) (by simp)
    rw [product, if_neg (by simpa using hvalues), ih fun a ha => h a (List.mem_cons_of_mem _ ha)]
    rw [List.flatMap_assoc]
    congr 1
    refine List.flatMap_congr fun base _ => ?_
    rw [choices, List.flatMap_map, List.map_flatMap]
    refine List.flatMap_congr fun v _ => ?_
    rw [List.map_map]
    rfl

/-! ## All of it -/

namespace MatrixParts

variable {parts : MatrixParts} {jobId : String}

theorem mem_sortedAxes {axis : String × List Json} : axis ∈ parts.sortedAxes ↔ axis ∈ parts.axes :=
  List.mem_insertionSort _

theorem grown_cells : parts.cells.Grown where
  axes c hc := by
    obtain ⟨o, ho, rfl⟩ := List.mem_map.mp hc
    have hmem := List.mem_of_mem_filter ho
    unfold combinations at hmem
    split_ifs at hmem
    · cases hmem
    · obtain ⟨ps, -, rfl⟩ := List.mem_map.mp hmem
      exact keyed_extend List.Pairwise.nil
  keeps c hc k w hw := by
    obtain ⟨o, -, rfl⟩ := List.mem_map.mp hc
    exact hw
  apart c hc a ha := by cases ha
  keyed a ha := by cases ha

theorem combos_cells : parts.cells.combos = parts.remaining := by
  rw [Cells.combos, cells, List.map_map, List.append_nil]
  exact List.map_id _

theorem excludeFrom_eq (combos : List Json.Obj) : excludeFrom parts.excluded combos =
    combos.filter fun o => !parts.excluded.any (Json.Obj.keeps o) := by
  unfold excludeFrom
  refine List.filter_congr fun o _ => ?_
  congr 2
  funext e
  exact matchesSubset_eq o e

/-- Two lists have the same items, where an empty one is none. -/
theorem rel_perm_iff {l l' : List Json.Obj} : Option.Rel List.Perm
    (if l.isEmpty then none else some l) (if l'.isEmpty then none else some l') ↔ l.Perm l' := by
  cases l with
  | nil =>
    cases l' with
    | nil => exact iff_of_true .none (.refl _)
    | cons b l' => simp
  | cons a l =>
    cases l' with
    | nil => simp
    | cons b l' => exact ⟨fun h => by cases h; assumption, .some⟩

/-- What the code starts with. -/
def start (parts : MatrixParts) : List Json.Obj :=
  excludeFrom parts.excluded ((choices parts.sortedAxes).map (Json.Obj.extend []))

theorem follows_iff (h : ∀ axis ∈ parts.axes, axis.2 ≠ []) :
    parts.Follows (expandParts jobId parts) ↔ (parts.included.foldl includeInto parts.start).Perm
      (parts.included.foldl Cells.addEntry parts.cells).combos := by
  have hproduct : product jobId parts.sortedAxes [[]] =
      .ok ((choices parts.sortedAxes).map (Json.Obj.extend [])) := by
    rw [product_eq fun axis ha => h axis (mem_sortedAxes.mp ha)]
    simp
  have hcode : (expandParts jobId parts).toOption =
      if (parts.included.foldl includeInto parts.start).isEmpty then none
      else some (parts.included.foldl includeInto parts.start) := by
    unfold expandParts
    rw [hproduct]
    change (if (parts.included.foldl includeInto parts.start).isEmpty then Except.error _
      else Except.ok (parts.included.foldl includeInto parts.start)).toOption = _
    split_ifs <;> rfl
  rw [Follows, hcode]
  exact rel_perm_iff

/-- An axis without values is an error. -/
theorem follows_of_empty (h : ∃ axis ∈ parts.axes, axis.2 = []) :
    parts.Follows (expandParts jobId parts) ↔ parts.included = [] := by
  have hsorted : ∃ axis ∈ parts.sortedAxes, axis.2 = [] := by simpa [mem_sortedAxes] using h
  have hcode : (expandParts jobId parts).toOption = none := by
    have hproduct := @product_of_empty jobId _ hsorted [[]]
    unfold expandParts
    cases hp : product jobId parts.sortedAxes [[]] with
    | error e => rfl
    | ok combos =>
      rw [hp] at hproduct
      cases hproduct
  have hcells : parts.cells = ⟨[], []⟩ := by
    rw [cells, remaining, combinations, choices_of_empty hsorted]
    simp
  rw [Follows, hcode, expansion, hcells, Cells.combos_foldl_of_nil, List.nil_append]
  cases parts.included with
  | nil => exact iff_of_true .none rfl
  | cons e es => simp

/-- Without axes, the entries of `include:` are the combinations. -/
theorem follows_of_nil (h : parts.axes = []) (hkeyed : ∀ e ∈ parts.included, Keyed e) :
    parts.Follows (expandParts jobId parts) ↔
      (parts.excluded = [] → parts.included ≠ []) ∧ parts.cells.AllFair parts.included := by
  have hsorted : parts.sortedAxes = [] := by rw [sortedAxes, h]; rfl
  have hcells : parts.cells = ⟨[], []⟩ := by
    rw [cells, remaining, hsorted]
    rfl
  have hany : ∀ e : Json.Obj, Json.Obj.keeps [] e = true := fun e => by
    simp [Json.Obj.keeps, Json.Obj.get]
  rw [follows_iff (by simp [h]), hcells, Cells.combos_foldl_of_nil, List.nil_append, start, hsorted,
    excludeFrom_eq]
  by_cases hex : parts.excluded = []
  · have hstart : ((choices []).map (Json.Obj.extend [])).filter
        (fun o => !parts.excluded.any (Json.Obj.keeps o)) = [[]] := by
      rw [hex]
      rfl
    rw [hstart]
    cases hinc : parts.included with
    | nil => simp [hex]
    | cons e es =>
      rw [hinc] at hkeyed
      have he := hkeyed e (by simp)
      -- the first entry goes into the empty combination
      have hfirst : includeInto [[]] e = [e] := by
        rw [Cells.includeInto_eq, if_pos (by simp [hany]), List.map_singleton, Cells.grow,
          if_pos (hany e), extend_nil he]
      have hfair : (⟨[], []⟩ : Cells).AllFair (e :: es) ↔ (⟨[], [e]⟩ : Cells).AllFair es :=
        and_iff_right ⟨by simp, by simp⟩
      have hiff := @Cells.perm_iff_of_nil es [e] (by simpa using he) fun d hd =>
        hkeyed d (List.mem_cons_of_mem e hd)
      rw [List.foldl_cons, hfirst, hfair]
      exact hiff.trans (and_iff_right (by simp)).symm
  · have hstart : ((choices []).map (Json.Obj.extend [])).filter
        (fun o => !parts.excluded.any (Json.Obj.keeps o)) = [] := by
      obtain ⟨x, xs, hx⟩ := List.exists_cons_of_ne_nil hex
      rw [hx]
      simp [choices, Json.Obj.extend, hany]
    rw [hstart]
    have hiff := @Cells.perm_iff_of_nil parts.included [] (by simp) hkeyed
    rw [List.nil_append] at hiff
    rw [hiff]
    simp [hex]

theorem combinations_sortedAxes (h : parts.axes ≠ []) :
    combinations parts.sortedAxes = (choices parts.sortedAxes).map (Json.Obj.extend []) := by
  rw [combinations, if_neg]
  rw [← List.length_eq_zero_iff, sortedAxes, List.length_insertionSort, List.length_eq_zero_iff]
  exact h

/-- A combination that the code keeps is one the rules keep. -/
theorem kept_of_start {o : Json.Obj} (h : (!parts.excluded.any (keeps o)) = true) :
    (!parts.excluded.any (has o)) = true := by
  rw [Bool.not_eq_true', List.any_eq_false] at h ⊢
  exact fun e he hhas => h e he (keeps_of_has hhas)

/-- The code starts with the combinations that are left if and only if every exclusion is by an entry
with all its values. -/
theorem start_perm_iff (h : parts.axes ≠ []) : parts.start.Perm parts.remaining ↔
    ∀ o ∈ combinations parts.sortedAxes,
      parts.excluded.any (keeps o) = true → parts.excluded.any (has o) = true := by
  rw [start, remaining, excludeFrom_eq, combinations_sortedAxes h,
    Choice.filter_perm_filter_iff fun o _ => kept_of_start]
  refine forall₂_congr fun o _ => ?_
  cases parts.excluded.any (keeps o) <;> cases parts.excluded.any (has o) <;> simp

theorem start_eq_of_perm (h : parts.axes ≠ []) (hperm : parts.start.Perm parts.remaining) :
    parts.start = parts.remaining := by
  refine List.Sublist.eq_of_length ?_ hperm.length_eq
  rw [start, remaining, excludeFrom_eq, combinations_sortedAxes h]
  exact List.monotone_filter_right _ fun o => kept_of_start

/-- **A fair matrix is expanded by the rules.** -/
theorem follows_of_fair (hkeyed : ∀ e ∈ parts.included, Keyed e) (h : parts.Fair) :
    parts.Follows (expandParts jobId parts) := by
  unfold Fair at h
  split_ifs at h with hnone hempty
  · exact (follows_of_nil hnone hkeyed).mpr h
  · exact (follows_of_empty hempty).mpr h
  · obtain ⟨hexcluded, hfair⟩ := h
    rw [follows_iff fun axis ha hv => hempty ⟨axis, ha, hv⟩,
      start_eq_of_perm hnone ((start_perm_iff hnone).mpr hexcluded), ← combos_cells,
      Cells.foldl_fair grown_cells hkeyed hfair]

/-- Without values to combine, nothing else is. -/
theorem fair_of_follows (hkeyed : ∀ e ∈ parts.included, Keyed e)
    (hvalues : parts.axes = [] ∨ ∃ axis ∈ parts.axes, axis.2 = [])
    (h : parts.Follows (expandParts jobId parts)) : parts.Fair := by
  unfold Fair
  split_ifs with hnone hempty
  · exact (follows_of_nil hnone hkeyed).mp h
  · exact (follows_of_empty hempty).mp h
  · rcases hvalues with hnone' | hempty'
    · exact absurd hnone' hnone
    · exact absurd hempty' hempty

/-- **A matrix that is expanded by the rules, as far as one reads its `include:`, is fair.** -/
theorem fair_of_upTo (hkeyed : ∀ e ∈ parts.included, Keyed e)
    (h : ∀ n, (parts.upTo n).Follows (expandParts jobId (parts.upTo n))) : parts.Fair := by
  by_cases hvalues : parts.axes = [] ∨ ∃ axis ∈ parts.axes, axis.2 = []
  · have hall := h parts.included.length
    rw [upTo, List.take_length] at hall
    exact fair_of_follows hkeyed hvalues hall
  · obtain ⟨hnone, hempty⟩ := not_or.mp hvalues
    have hperm : ∀ n, ((parts.included.take n).foldl includeInto parts.start).Perm
        ((parts.included.take n).foldl Cells.addEntry parts.cells).combos := fun n =>
      (@follows_iff (parts.upTo n) jobId fun axis ha hv => hempty ⟨axis, ha, hv⟩).mp (h n)
    have hstart : parts.start.Perm parts.remaining := by
      have hzero := hperm 0
      rwa [List.take_zero, List.foldl_nil, List.foldl_nil, combos_cells] at hzero
    unfold Fair
    rw [if_neg hnone, if_neg hempty]
    refine ⟨(start_perm_iff hnone).mp hstart, Cells.allFair_of_perm grown_cells hkeyed ?_⟩
    rwa [combos_cells, ← start_eq_of_perm hnone hstart]

theorem allFair_take {s : Cells} {es : List Json.Obj} (h : s.AllFair es) (n : Nat) :
    s.AllFair (es.take n) := by
  induction es generalizing s n with
  | nil => simpa using h
  | cons e es ih =>
    cases n with
    | zero => trivial
    | succ n => exact ⟨h.1, ih h.2 n⟩

theorem fair_upTo (hnone : parts.axes ≠ []) (h : parts.Fair) (n : Nat) : (parts.upTo n).Fair := by
  unfold Fair at h ⊢
  rw [if_neg hnone] at h
  rw [if_neg (by exact hnone)]
  by_cases hempty : ∃ axis ∈ parts.axes, axis.2 = []
  · rw [if_pos hempty] at h
    rw [if_pos (by exact hempty), upTo, h, List.take_nil]
  · rw [if_neg hempty] at h
    rw [if_neg (by exact hempty)]
    exact ⟨h.1, allFair_take h.2 n⟩

end MatrixParts

/-! ## Matrices as they are written -/

theorem keyed_yamlMapToJson {Y : Type} {y : YamlCrate Y} {v : Y} {e : Json.Obj}
    (h : yamlMapToJson y v = some e) : Keyed e := by
  obtain ⟨entries, -, rfl⟩ := Option.map_eq_some_iff.mp h
  refine List.foldlRecOn entries _ List.Pairwise.nil fun o ho kv _ => ?_
  obtain ⟨k, v⟩ := kv
  dsimp only
  cases y.asStr k with
  | none => exact ho
  | some k => exact keyed_insert ho

theorem keyed_of_readMatrix {Y : Type} {y : YamlCrate Y} {jobId : String} {mtx : Y}
    {parts : MatrixParts} (h : readMatrix y jobId mtx = .ok parts) :
    ∀ e ∈ parts.included, Keyed e := by
  unfold readMatrix at h
  cases hmapping : y.asMapping mtx with
  | none =>
    rw [hmapping] at h
    cases h
  | some entries =>
    rw [hmapping] at h
    refine @Loop.foldlM_inv _ _ _ (fun parts : MatrixParts => ∀ e ∈ parts.included, Keyed e)
      (readMatrixEntry y jobId) entries (fun entry _ s s' hs hstep => ?_) _ _ (by simp) h
    unfold readMatrixEntry at hstep
    split at hstep
    · cases hstep
    · cases hstep
      intro e he
      obtain ⟨v, -, hv⟩ := List.mem_filterMap.mp he
      exact keyed_yamlMapToJson hv
    · cases hstep
      exact hs
    · cases hstep
      exact hs
    · cases hstep

/-- **A matrix is expanded by the rules if it is fair.** Without axes or without values for one of them,
only if; with axes, what is read of the matrix up to any entry of its `include:` is, if and only if. -/
theorem expandMatrix_follows {Y : Type} (y : YamlCrate Y) (jobId : String) (job : Job Y) (mtx : Y)
    (parts : MatrixParts) (hm : job.strategy.bind (·.mtx) = some mtx)
    (hparts : readMatrix y jobId mtx = .ok parts) :
    (parts.Fair → parts.Follows (expandMatrix y jobId job)) ∧
    ((parts.axes = [] ∨ ∃ axis ∈ parts.axes, axis.2 = []) →
      (parts.Follows (expandMatrix y jobId job) ↔ parts.Fair)) ∧
    (parts.axes ≠ [] →
      ((∀ n, (parts.upTo n).Follows (expandParts jobId (parts.upTo n))) ↔ parts.Fair)) := by
  have hkeyed := keyed_of_readMatrix hparts
  rw [expandMatrix_eq hm hparts]
  refine ⟨MatrixParts.follows_of_fair hkeyed, fun hvalues => ?_, fun hnone => ?_⟩
  · exact ⟨MatrixParts.fair_of_follows hkeyed hvalues, MatrixParts.follows_of_fair hkeyed⟩
  · refine ⟨MatrixParts.fair_of_upTo hkeyed, fun h n => ?_⟩
    exact MatrixParts.follows_of_fair (fun e he => hkeyed e (List.mem_of_mem_take he))
      (MatrixParts.fair_upTo hnone h n)

/-! ## Two matrices -/

section Samples

private def sampleJob (mtx : Json) : Job Json :=
  { Job.ofCommand "make" with strategy := some ⟨some mtx, none, true⟩ }

/-- Entries of `include:` that extend one combination and add another. -/
private def extended : Json := .obj
  [("include", .arr [.obj [("extra", .str "fast"), ("target", .str "x86")],
      .obj [("target", .str "riscv")]]),
    ("target", .arr [.str "x86", .str "arm"])]

private def extendedParts : MatrixParts where
  axes := [("target", [.str "x86", .str "arm"])]
  included := [[("extra", .str "fast"), ("target", .str "x86")], [("target", .str "riscv")]]
  excluded := []

/-- They do what the rules say. -/
theorem extended_follows :
    extendedParts.Follows (expandMatrix (.ofJobs []) "build" (sampleJob extended)) :=
  (expandMatrix_follows (.ofJobs []) "build" (sampleJob extended) extended extendedParts rfl rfl).1
    (by decide)

/-- Entries of `include:` that give a value one after the other. -/
private def overwritten : Json := .obj
  [("include", .arr [.obj [("fast", .bool true)], .obj [("fast", .bool false)]]),
    ("target", .arr [.str "x86"])]

private def overwrittenParts : MatrixParts where
  axes := [("target", [.str "x86"])]
  included := [[("fast", .bool true)], [("fast", .bool false)]]
  excluded := []

/-- The second is not given, but makes a combination. -/
theorem second_value_apart : ¬ ∀ (y : YamlCrate Json) (jobId : String) (job : Job Json) (mtx : Json)
    (parts : MatrixParts), job.strategy.bind (·.mtx) = some mtx →
      readMatrix y jobId mtx = .ok parts → parts.Follows (expandMatrix y jobId job) := by
  intro hall
  have hfollows := hall (.ofJobs []) "build" (sampleJob overwritten) overwritten overwrittenParts
    rfl rfl
  have hcode : (expandMatrix (.ofJobs []) "build" (sampleJob overwritten)).toOption =
      some [[("fast", .bool true), ("target", .str "x86")], [("fast", .bool false)]] := by
    decide
  have hrules : overwrittenParts.expansion = some [[("fast", .bool false), ("target", .str "x86")]] := by
    decide
  rw [MatrixParts.Follows, hcode, hrules] at hfollows
  cases hfollows with
  | some hperm => exact absurd hperm.length_eq (by decide)

end Samples

end HeyoCi

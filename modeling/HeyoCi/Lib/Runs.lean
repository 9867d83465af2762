import Mathlib.Data.List.Basic
import Mathlib.Tactic.SplitIfs

/-!
# Runs of letters

* `runs`: the longest runs of letters of a kind; `runs_append_cons`: what is between them parts a text;
* `intercalate_runs_inj`: a text of runs with one separator between any two says what the runs are;
* `squeeze`, `strip`: several other letters become one separator, and none is at the ends;
* **`strip_squeeze`**: what is left are the runs.
-/

universe u

namespace Runs

variable {α : Type u}

/-- The longest runs of letters of a kind. -/
def runs (p : α → Bool) (xs : List α) : List (List α) :=
  (xs.splitOnP fun c => !p c).filter fun w => !w.isEmpty

/-! ## The runs of a text -/

section Text

variable {p : α → Bool} {sep : α}

theorem runs_append_cons {c : α} (hc : p c = false) (xs ys : List α) :
    runs p (xs ++ c :: ys) = runs p xs ++ runs p ys := by
  rw [runs, List.splitOnP_append_cons xs ys (by rw [hc]; rfl), List.filter_append]
  rfl

theorem runs_of_all {xs : List α} (h : ∀ c ∈ xs, p c = true) :
    runs p xs = if xs = [] then [] else [xs] := by
  rw [runs, List.splitOnP_eq_singleton fun c hc => by rw [h c hc]; rfl]
  cases xs <;> rfl

/-- A run is not empty, and of letters of the kind. -/
theorem runs_spec {xs w : List α} (h : w ∈ runs p xs) : w ≠ [] ∧ ∀ c ∈ w, p c = true := by
  have hspec : ∀ n (xs : List α), xs.length ≤ n → ∀ w ∈ runs p xs, w ≠ [] ∧ ∀ c ∈ w, p c = true := by
    intro n
    induction n with
    | zero =>
      intro xs hlen w hw
      rw [List.length_eq_zero_iff.mp (Nat.le_zero.mp hlen), runs_of_all (by simp)] at hw
      cases hw
    | succ n ih =>
      intro xs hlen w hw
      by_cases hall : ∀ c ∈ xs, p c = true
      · rw [runs_of_all hall] at hw
        split_ifs at hw with hnil
        · cases hw
        · rw [List.mem_singleton.mp hw]
          exact ⟨hnil, hall⟩
      · simp only [not_forall] at hall
        obtain ⟨c, hc, hp⟩ := hall
        obtain ⟨before, after, rfl⟩ := List.append_of_mem hc
        rw [List.length_append, List.length_cons] at hlen
        rw [runs_append_cons (Bool.eq_false_iff.mpr hp), List.mem_append] at hw
        rcases hw with hw | hw
        · exact ih before (by omega) w hw
        · exact ih after (by omega) w hw
  exact hspec xs.length xs (Nat.le_refl _) w h

theorem sep_notMem_runs (hsep : p sep = false) {xs w : List α} (h : w ∈ runs p xs) : sep ∉ w :=
  fun hmem => absurd ((runs_spec h).2 sep hmem) (by rw [hsep]; exact Bool.false_ne_true)

theorem intercalate_concat (ws : List (List α)) (w : List α) :
    [sep].intercalate (ws ++ [w]) = ws.flatMap (· ++ [sep]) ++ w := by
  induction ws with
  | nil => exact List.intercalate_singleton
  | cons v ws ih =>
    rw [List.cons_append, List.intercalate_cons_of_ne_nil (by simp), ih, List.flatMap_cons]
    simp

theorem intercalate_runs_eq_nil {xs : List α} : [sep].intercalate (runs p xs) = [] ↔ runs p xs = [] := by
  rcases List.eq_nil_or_concat (runs p xs) with hnil | ⟨front, w, hruns⟩
  · rw [hnil]
    exact iff_of_true rfl rfl
  · rw [List.concat_eq_append] at hruns
    have hw := (runs_spec (hruns ▸ List.mem_append_right front List.mem_cons_self : w ∈ runs p xs)).1
    rw [hruns, intercalate_concat]
    simp [hw]

/-- What is in a text of runs. -/
theorem mem_intercalate_runs {xs : List α} {c : α} (h : c ∈ [sep].intercalate (runs p xs)) :
    c = sep ∨ p c = true := by
  rcases List.eq_nil_or_concat (runs p xs) with hnil | ⟨front, w, hruns⟩
  · rw [hnil] at h
    cases h
  · rw [List.concat_eq_append] at hruns
    have hall : ∀ v ∈ front ++ [w], ∀ d ∈ v, p d = true := fun v hv => (runs_spec (hruns ▸ hv)).2
    rw [hruns, intercalate_concat, List.mem_append, List.mem_flatMap] at h
    rcases h with ⟨v, hv, hc⟩ | hc
    · rcases List.mem_append.mp hc with hc | hc
      · exact Or.inr (hall v (List.mem_append_left _ hv) c hc)
      · exact Or.inl (List.mem_singleton.mp hc)
    · exact Or.inr (hall w (by simp) c hc)

variable [DecidableEq α] in
/-- **A text of runs, with one separator between any two, says what they are.** -/
theorem intercalate_runs_inj (hsep : p sep = false) {xs ys : List α} :
    [sep].intercalate (runs p xs) = [sep].intercalate (runs p ys) ↔ runs p xs = runs p ys := by
  refine ⟨fun h => ?_, fun h => by rw [h]⟩
  by_cases hx : runs p xs = []
  · rw [hx, List.intercalate_nil, eq_comm, intercalate_runs_eq_nil] at h
    rw [hx, h]
  · by_cases hy : runs p ys = []
    · rw [hy, List.intercalate_nil, intercalate_runs_eq_nil] at h
      exact absurd h hx
    · have hsplit := congrArg (List.splitOn sep) h
      rwa [List.splitOn_intercalate sep (fun _ => sep_notMem_runs hsep) hx,
        List.splitOn_intercalate sep (fun _ => sep_notMem_runs hsep) hy] at hsplit

theorem ne_sep (hsep : p sep = false) {c : α} (hc : p c = true) : c ≠ sep := by
  rintro rfl
  rw [hsep] at hc
  cases hc

/-- There is no separator at the ends of a text of runs. -/
theorem ends_intercalate (hsep : p sep = false) {ws : List (List α)}
    (h : ∀ w ∈ ws, w ≠ [] ∧ ∀ c ∈ w, p c = true) :
    ([sep].intercalate ws).head? ≠ some sep ∧ ([sep].intercalate ws).getLast? ≠ some sep := by
  rcases List.eq_nil_or_concat ws with rfl | ⟨front, w, rfl⟩
  · exact ⟨by simp, by simp⟩
  · rw [List.concat_eq_append] at h ⊢
    obtain ⟨hne, hw⟩ := h w (by simp)
    rw [intercalate_concat]
    constructor
    · intro hhead
      cases front with
      | nil => exact ne_sep hsep (hw sep (List.mem_of_head? hhead)) rfl
      | cons v front =>
        obtain ⟨hv, hall⟩ := h v (by simp)
        rw [List.flatMap_cons, List.append_assoc, List.append_assoc,
          List.head?_append_of_ne_nil _ hv] at hhead
        exact ne_sep hsep (hall sep (List.mem_of_head? hhead)) rfl
    · rw [List.getLast?_append_of_ne_nil _ hne]
      exact fun hlast => ne_sep hsep (hw sep (List.mem_of_getLast? hlast)) rfl

end Text

/-! ## One separator for several -/

section Squeeze

variable [DecidableEq α] (p : α → Bool) (sep : α)

/-- Keep a letter of the kind; for the others a separator, if none is there. -/
def squeezeStep (out : List α) (c : α) : List α :=
  if p c then out ++ [c] else if out.getLast? = some sep then out else out ++ [sep]

def squeeze (xs : List α) : List α := xs.foldl (squeezeStep p sep) []

/-- A text without the separators at its ends. -/
def strip (xs : List α) : List α :=
  ((xs.dropWhile fun c => c = sep).reverse.dropWhile fun c => c = sep).reverse

variable {p sep}

/-- The text between the separators at its ends. -/
theorem strip_append {lead xs : List α} (trail : List α) (hlead : ∀ c ∈ lead, c = sep)
    (htrail : ∀ c ∈ trail, c = sep) (hhead : xs.head? ≠ some sep) (hlast : xs.getLast? ≠ some sep) :
    strip sep (lead ++ (xs ++ trail)) = xs := by
  have hkeep : ∀ {ys : List α}, ys.head? ≠ some sep → ys.dropWhile (fun c => c = sep) = ys := by
    intro ys hys
    cases ys with
    | nil => rfl
    | cons y ys =>
      rw [List.dropWhile_cons_of_neg]
      intro hy
      exact hys (congrArg some (of_decide_eq_true hy))
  have hdrop : ∀ {ys : List α}, (∀ c ∈ ys, c = sep) → ∀ zs : List α,
      (ys ++ zs).dropWhile (fun c => c = sep) = zs.dropWhile fun c => c = sep :=
    fun hys zs => List.dropWhile_append_of_pos fun c hc => decide_eq_true (hys c hc)
  rw [strip, hdrop hlead]
  cases xs with
  | nil =>
    rw [List.nil_append, ← List.append_nil trail, hdrop htrail]
    rfl
  | cons x xs =>
    have hcons : (x :: xs ++ trail).head? ≠ some sep := hhead
    rw [hkeep hcons, List.reverse_append, hdrop fun c hc => htrail c (List.mem_reverse.mp hc), hkeep,
      List.reverse_reverse]
    rwa [List.head?_reverse]

/-- Runs with a separator behind each, and the letters behind the last of them. -/
theorem strip_done (hsep : p sep = false) {lead : List α} (hlead : ∀ c ∈ lead, c = sep)
    {done : List (List α)} (hdone : ∀ w ∈ done, w ≠ [] ∧ ∀ c ∈ w, p c = true) {run : List α}
    (hrun : ∀ c ∈ run, p c = true) :
    strip sep (lead ++ (done.flatMap (· ++ [sep]) ++ run)) =
      [sep].intercalate (done ++ runs p run) := by
  rw [runs_of_all hrun]
  by_cases hnil : run = []
  · rw [if_pos hnil, hnil, List.append_nil, List.append_nil]
    obtain ⟨hhead, hlast⟩ := ends_intercalate hsep hdone
    rcases List.eq_nil_or_concat done with rfl | ⟨front, w, rfl⟩
    · exact strip_append [] hlead (by simp) hhead hlast
    · rw [List.concat_eq_append, intercalate_concat] at hhead hlast
      rw [List.concat_eq_append, List.flatMap_append, intercalate_concat, List.flatMap_singleton,
        ← List.append_assoc (front.flatMap _)]
      exact strip_append [sep] hlead (by simp) hhead hlast
  · rw [if_neg hnil]
    have hall : ∀ w ∈ done ++ [run], w ≠ [] ∧ ∀ c ∈ w, p c = true := fun w hw =>
      (List.mem_append.mp hw).elim (hdone w) fun h => List.mem_singleton.mp h ▸ ⟨hnil, hrun⟩
    obtain ⟨hhead, hlast⟩ := ends_intercalate hsep hall
    rw [intercalate_concat] at hhead hlast ⊢
    have hstrip := strip_append [] hlead (by simp) hhead hlast
    rwa [List.append_nil] at hstrip

/-- A text is squeezed from left to right: what is there are the runs that are done, each with a
separator, and the letters behind the last of them. -/
theorem strip_foldl (hsep : p sep = false) (cs : List α) {lead : List α}
    (hlead : lead = [] ∨ lead = [sep]) {done : List (List α)}
    (hdone : ∀ w ∈ done, w ≠ [] ∧ ∀ c ∈ w, p c = true) {run : List α}
    (hrun : ∀ c ∈ run, p c = true) :
    strip sep (cs.foldl (squeezeStep p sep) (lead ++ (done.flatMap (· ++ [sep]) ++ run))) =
      [sep].intercalate (done ++ runs p (run ++ cs)) := by
  induction cs generalizing lead done run with
  | nil =>
    rw [List.foldl_nil, List.append_nil]
    refine strip_done hsep ?_ hdone hrun
    rcases hlead with rfl | rfl <;> simp
  | cons c cs ih =>
    have hnone : ∀ d ∈ ([] : List α), p d = true := by simp
    rw [List.foldl_cons, squeezeStep]
    by_cases hc : p c = true
    · have hrun' : ∀ d ∈ run ++ [c], p d = true := fun d hd =>
        (List.mem_append.mp hd).elim (hrun d) fun h => List.mem_singleton.mp h ▸ hc
      have hstep := ih hlead hdone hrun'
      rw [List.append_assoc run, List.singleton_append] at hstep
      rw [if_pos hc, ← hstep]
      simp only [List.append_assoc]
    · rw [if_neg hc, runs_append_cons (Bool.eq_false_iff.mpr hc), runs_of_all hrun]
      by_cases hnil : run = []
      · subst hnil
        rw [if_pos rfl, List.nil_append, List.append_nil]
        rcases List.eq_nil_or_concat done with rfl | ⟨front, w, rfl⟩
        · have hnext := ih (Or.inr rfl) hdone hnone
          rcases hlead with rfl | rfl
          · exact hnext
          · rw [if_pos (by simp)]
            exact hnext
        · rw [if_pos (by simp)]
          have hnext := ih hlead hdone hnone
          rwa [List.append_nil] at hnext
      · have hall : ∀ w ∈ done ++ [run], w ≠ [] ∧ ∀ c ∈ w, p c = true := fun w hw =>
          (List.mem_append.mp hw).elim (hdone w) fun h => List.mem_singleton.mp h ▸ ⟨hnil, hrun⟩
        have hlast : (lead ++ (done.flatMap (· ++ [sep]) ++ run)).getLast? ≠ some sep := by
          rw [← List.append_assoc, List.getLast?_append_of_ne_nil _ hnil]
          exact fun h => ne_sep hsep (hrun sep (List.mem_of_getLast? h)) rfl
        have hnext := ih hlead hall hnone
        rw [List.nil_append] at hnext
        rw [if_neg hlast, if_neg hnil, ← List.append_assoc done, ← hnext, List.flatMap_append]
        simp

/-- **What is squeezed and stripped is the runs of the text**, a separator between any two. -/
theorem strip_squeeze (hsep : p sep = false) (xs : List α) :
    strip sep (squeeze p sep xs) = [sep].intercalate (runs p xs) :=
  strip_foldl hsep xs (Or.inl rfl) (List.forall_mem_nil _) (List.forall_mem_nil _)

end Squeeze

end Runs

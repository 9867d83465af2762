import Mathlib.Data.Finset.Card
import HeyoCi.Lib.Cycles
import HeyoCi.Workflow.File

/-!
# Cycles of `needs:`

* `Needs`: a job waits for another; `needs_iff`: where the ids are different;
* `Edge`, `Search`: the search goes along its map, and where it is;
* `Visited`: what a visit without a cycle leaves; `visitEach_spec`, **`visit_spec`**;
* `findCycle_spec`, **`findCycle_exact`**: there is a result if and only if the jobs form a cycle, and
  it is one.
-/

namespace HeyoCi.Workflow

open Cycles Relation

variable {Y : Type}

/-- A job waits for another, by its last entry. -/
def Needs (wf : Workflow Y) (a b : String) : Prop :=
  ∃ needs, wf.deps.lookup a = some needs ∧ b ∈ needs

/-! ## The search -/

/-- What the search goes along: the needs that have an entry. -/
def Edge (deps : List (String × List String)) (a b : String) : Prop :=
  (∃ needs, deps.lookup a = some needs ∧ b ∈ needs) ∧ (deps.lookup b).isSome

/-- Jobs are open as long as they are on the stack, the stack is a path, and what is done is cleared. -/
structure Search (deps : List (String × List String)) (s : Visits) : Prop where
  opened : ∀ n, s.marks.lookup n = some .opened ↔ n ∈ s.stack
  path : s.stack.IsChain (Edge deps)
  cleared : Cleared (Edge deps) fun n => s.marks.lookup n = some .done

/-- The entries without a mark. -/
def unmarked (deps : List (String × List String)) (s : Visits) : Finset String :=
  (deps.map Prod.fst).toFinset.filter fun n => s.marks.lookup n = none

/-- What a visit without a cycle leaves: no mark is taken back, and the stack is as it was. -/
structure Visited (deps : List (String × List String)) (s s' : Visits) : Prop where
  search : Search deps s'
  stack : s'.stack = s.stack
  keeps : ∀ n, s.marks.lookup n = some .done → s'.marks.lookup n = some .done
  fewer : unmarked deps s' ⊆ unmarked deps s

variable {deps : List (String × List String)}

theorem Search.visited {s : Visits} (h : Search deps s) : Visited deps s s :=
  ⟨h, rfl, fun _ hn => hn, fun _ hn => hn⟩

theorem Visited.trans {s s' s'' : Visits} (h : Visited deps s s') (h' : Visited deps s' s'') :
    Visited deps s s'' :=
  ⟨h'.search, h'.stack.trans h.stack, fun n hn => h'.keeps n (h.keeps n hn),
    h'.fewer.trans h.fewer⟩

theorem lookup_cons_ne {n node : String} {m : Mark} {marks : List (String × Mark)} (h : n ≠ node) :
    ((node, m) :: marks).lookup n = marks.lookup n := by
  rw [List.lookup_cons, beq_eq_false_iff_ne.mpr h]

/-- A job that is opened. -/
theorem Search.open {s : Visits} {node : String} (h : Search deps s)
    (hnew : s.marks.lookup node = none) (hpath : (s.stack ++ [node]).IsChain (Edge deps)) :
    Search deps ⟨(node, .opened) :: s.marks, s.stack ++ [node]⟩ := by
  refine ⟨fun n => ?_, hpath, ?_⟩
  · by_cases hn : n = node
    · subst hn
      simp
    · simp [lookup_cons_ne hn, h.opened, hn]
  · have hdone : (fun n => ((node, Mark.opened) :: s.marks).lookup n = some .done) =
        fun n => s.marks.lookup n = some .done := by
      funext n
      by_cases hn : n = node
      · subst hn
        simp [hnew]
      · rw [lookup_cons_ne hn]
    rw [hdone]
    exact h.cleared

/-- A job whose needs are done is done. -/
theorem Search.close {s s' : Visits} {node : String} (h : Search deps s)
    (hnew : s.marks.lookup node = none)
    (hvisited : Visited deps ⟨(node, .opened) :: s.marks, s.stack ++ [node]⟩ s')
    (hneeds : ∀ b, Edge deps node b → s'.marks.lookup b = some .done) :
    Visited deps s ⟨(node, .done) :: s'.marks, s'.stack.dropLast⟩ := by
  obtain ⟨hsearch, hstack, hkeeps, hfewer⟩ := hvisited
  have hdrop : s'.stack.dropLast = s.stack := by rw [hstack, List.dropLast_concat]
  have hnot : node ∉ s.stack := by
    rw [← h.opened, hnew]
    simp
  have hopened : s'.marks.lookup node = some .opened := by
    rw [hsearch.opened, hstack]
    simp
  refine ⟨⟨fun n => ?_, ?_, ?_⟩, hdrop, fun n hn => ?_, fun n hn => ?_⟩
  · rw [hdrop]
    by_cases hn : n = node
    · subst hn
      simp [hnot]
    · rw [lookup_cons_ne hn, hsearch.opened, hstack]
      simp [hn]
  · rw [hdrop]
    exact h.path
  · have hdone : (fun n => ((node, Mark.done) :: s'.marks).lookup n = some .done) =
        fun n => n = node ∨ s'.marks.lookup n = some .done := by
      funext n
      by_cases hn : n = node
      · subst hn
        simp
      · simp [lookup_cons_ne hn, hn]
    rw [hdone]
    refine hsearch.cleared.insert ?_ hneeds
    rw [hopened]
    simp
  · have hne : n ≠ node := by
      rintro rfl
      rw [hnew] at hn
      cases hn
    rw [lookup_cons_ne hne]
    refine hkeeps n ?_
    rwa [lookup_cons_ne hne]
  · rw [unmarked, Finset.mem_filter] at hn
    have hne : n ≠ node := by
      rintro rfl
      rw [List.lookup_cons_self] at hn
      cases hn.2
    rw [lookup_cons_ne hne] at hn
    have hmem := hfewer (Finset.mem_filter.mpr hn)
    rw [unmarked, Finset.mem_filter] at hmem ⊢
    rwa [lookup_cons_ne hne] at hmem

/-- Visits in turn, where each of them does what it should. -/
theorem visitEach_spec {visit : String → Visits → Option (List String) × Visits}
    {nodes : List String} {s : Visits}
    (hvisit : ∀ node ∈ nodes, ∀ s', Visited deps s s' → ∀ r s'', visit node s' = (r, s'') →
      (∀ c, r = some c → IsCycle (Edge deps) c) ∧
        (r = none → Visited deps s' s'' ∧ s''.marks.lookup node = some .done))
    (h : Search deps s) {r : Option (List String)} {s' : Visits}
    (hr : visitEach visit nodes s = (r, s')) :
    (∀ c, r = some c → IsCycle (Edge deps) c) ∧
      (r = none → Visited deps s s' ∧ ∀ node ∈ nodes, s'.marks.lookup node = some .done) := by
  induction nodes generalizing s with
  | nil =>
    cases hr
    exact ⟨by simp, fun _ => ⟨h.visited, fun _ hn => absurd hn List.not_mem_nil⟩⟩
  | cons node nodes ih =>
    rcases hv : visit node s with ⟨r₁, s₁⟩
    obtain ⟨hcycle, hdone⟩ := hvisit node List.mem_cons_self s h.visited r₁ s₁ hv
    rw [visitEach, hv] at hr
    cases r₁ with
    | some c =>
      cases hr
      exact ⟨hcycle, by simp⟩
    | none =>
      obtain ⟨hfirst, hnode⟩ := hdone rfl
      obtain ⟨hcycle, hrest⟩ := ih (fun n hn t ht => hvisit n (List.mem_cons_of_mem node hn) t
        (hfirst.trans ht)) hfirst.search hr
      refine ⟨hcycle, fun hnone => ?_⟩
      obtain ⟨hvisited, hall⟩ := hrest hnone
      refine ⟨hfirst.trans hvisited, fun n hn => ?_⟩
      rcases List.mem_cons.mp hn with rfl | hn
      · exact hvisited.keeps n hnode
      · exact hall n hn

theorem mem_keys_of_lookup {node : String} (h : (deps.lookup node).isSome) :
    node ∈ deps.map Prod.fst := by
  obtain ⟨needs, hneeds⟩ := Option.isSome_iff_exists.mp h
  obtain ⟨l₁, l₂, rfl, -⟩ := List.lookup_eq_some_iff.mp hneeds
  simp

theorem unmarked_open_lt {s : Visits} {node : String} (hnew : s.marks.lookup node = none)
    (hkey : (deps.lookup node).isSome) :
    (unmarked deps ⟨(node, .opened) :: s.marks, s.stack ++ [node]⟩).card < (unmarked deps s).card := by
  apply Finset.card_lt_card
  refine ⟨fun n hn => ?_, fun hsub => ?_⟩
  · rw [unmarked, Finset.mem_filter] at hn ⊢
    have hne : n ≠ node := by
      rintro rfl
      rw [List.lookup_cons_self] at hn
      cases hn.2
    rwa [lookup_cons_ne hne] at hn
  · have hmem : node ∈ unmarked deps s := by
      rw [unmarked, Finset.mem_filter, List.mem_toFinset]
      exact ⟨mem_keys_of_lookup hkey, hnew⟩
    have hmem' := hsub hmem
    rw [unmarked, Finset.mem_filter, List.lookup_cons_self] at hmem'
    cases hmem'.2

/-- **A visit finds a cycle, or leaves its job done.** -/
theorem visit_spec {depth : Nat} {node : String} {s : Visits} (h : Search deps s)
    (hpath : (s.stack ++ [node]).IsChain (Edge deps)) (hkey : (deps.lookup node).isSome)
    (hdepth : (unmarked deps s).card < depth) {r : Option (List String)} {s' : Visits}
    (hr : visit deps depth node s = (r, s')) :
    (∀ c, r = some c → IsCycle (Edge deps) c) ∧
      (r = none → Visited deps s s' ∧ s'.marks.lookup node = some .done) := by
  induction depth generalizing node s r s' with
  | zero => exact absurd hdepth (Nat.not_lt_zero _)
  | succ depth ih =>
    rw [visit] at hr
    cases hmark : s.marks.lookup node with
    | some m =>
      cases m with
      | done =>
        simp only [hmark] at hr
        cases hr
        exact ⟨by simp, fun _ => ⟨h.visited, hmark⟩⟩
      | opened =>
        simp only [hmark] at hr
        cases hr
        have hmem := (h.opened node).mp hmark
        obtain ⟨i, hi⟩ := Option.isSome_iff_exists.mp (List.isSome_idxOf?.mpr hmem)
        have hcycle := isCycle_of_chain hmem hpath
        rw [List.idxOf_eq_getD_idxOf?, hi, Option.getD_some] at hcycle
        rw [hi, Option.getD_some]
        exact ⟨by simpa using hcycle, by simp⟩
    | none =>
      simp only [hmark] at hr
      obtain ⟨needs, hneeds⟩ := Option.isSome_iff_exists.mp hkey
      have hedge : ∀ n, n ∈ needs.filter (fun n => (deps.lookup n).isSome) ↔ Edge deps node n := by
        simp [Edge, hneeds]
      have hlt := unmarked_open_lt hmark hkey
      -- the needs are visited with the job on the stack
      have heach : ∀ n ∈ needs.filter (fun n => (deps.lookup n).isSome), ∀ t,
          Visited deps ⟨(node, .opened) :: s.marks, s.stack ++ [node]⟩ t →
          ∀ r t', visit deps depth n t = (r, t') → (∀ c, r = some c → IsCycle (Edge deps) c) ∧
            (r = none → Visited deps t t' ∧ t'.marks.lookup n = some .done) := by
        intro n hn t ht r t' hrt
        have hstep := (hedge n).mp hn
        have hfewer := Finset.card_le_card ht.fewer
        refine ih ht.search ?_ hstep.2 (by omega) hrt
        rw [ht.stack]
        refine List.isChain_append.mpr ⟨hpath, List.isChain_singleton n, ?_⟩
        simpa using hstep
      rw [hneeds, Option.getD_some] at hr
      rcases hv : visitEach (visit deps depth) (needs.filter fun n => (deps.lookup n).isSome)
        ⟨(node, .opened) :: s.marks, s.stack ++ [node]⟩ with ⟨r₁, s₁⟩
      obtain ⟨hcycle, hrest⟩ := visitEach_spec heach (h.open hmark hpath) hv
      rw [hv] at hr
      cases r₁ with
      | some c =>
        cases hr
        exact ⟨hcycle, by simp⟩
      | none =>
        cases hr
        obtain ⟨hvisited, hall⟩ := hrest rfl
        have hdone : ∀ b, Edge deps node b → s₁.marks.lookup b = some .done := fun b hb =>
          hall b ((hedge b).mpr hb)
        exact ⟨by simp, fun _ => ⟨h.close hmark hvisited hdone, List.lookup_cons_self⟩⟩

/-! ## All jobs -/

variable {wf : Workflow Y}

theorem mem_keys_iff {a : String} : (wf.deps.lookup a).isSome ↔ a ∈ wf.jobs.map Prod.fst := by
  rw [List.lookup_isSome_iff, List.mem_map]
  constructor
  · rintro ⟨p, hp, heq⟩
    obtain ⟨entry, hentry, rfl⟩ := List.mem_map.mp (List.mem_reverse.mp hp)
    exact ⟨entry, hentry, (beq_iff_eq.mp heq).symm⟩
  · rintro ⟨entry, hentry, rfl⟩
    exact ⟨_, List.mem_reverse.mpr (List.mem_map_of_mem hentry), beq_self_eq_true _⟩

/-- A cycle of needs goes through jobs that have an entry. -/
theorem transGen_edge {a b : String} (h : TransGen wf.Needs a b) (hb : (wf.deps.lookup b).isSome) :
    TransGen (Edge wf.deps) a b := by
  induction h with
  | single hstep => exact .single ⟨hstep, hb⟩
  | tail _ hstep ih =>
    have hkey := hstep
    obtain ⟨needs, hneeds, -⟩ := hkey
    exact .tail (ih (by rw [hneeds]; rfl)) ⟨hstep, hb⟩

theorem findCycle_spec : (∀ c, wf.findCycle = some c → IsCycle wf.Needs c) ∧
    (wf.findCycle = none → ∀ a, ¬ TransGen wf.Needs a a) := by
  have hstart : Search wf.deps ⟨[], []⟩ := ⟨by simp, .nil, by simpa using cleared_empty⟩
  have hcard : (unmarked wf.deps ⟨[], []⟩).card ≤ wf.deps.length := by
    refine (Finset.card_filter_le _ _).trans ((List.toFinset_card_le _).trans ?_)
    rw [List.length_map]
  rcases hv : visitEach (visit wf.deps (wf.deps.length + 1)) (wf.jobs.map Prod.fst) ⟨[], []⟩
    with ⟨r, s⟩
  obtain ⟨hcycle, hrest⟩ := visitEach_spec (fun n hn t ht r t' hrt => by
    have hfewer := Finset.card_le_card ht.fewer
    refine visit_spec ht.search ?_ (mem_keys_iff.mpr hn) (by omega) hrt
    rw [ht.stack]
    exact List.isChain_singleton n) hstart hv
  have hr : wf.findCycle = r := by rw [findCycle, hv]
  rw [hr]
  refine ⟨fun c hc => ?_, fun hnone a ha => ?_⟩
  · obtain ⟨hends, htwo, hchain⟩ := hcycle c hc
    exact ⟨hends, htwo, hchain.imp fun _ _ h => h.1⟩
  · obtain ⟨b, ⟨needs, hneeds, -⟩, -⟩ := TransGen.head'_iff.mp ha
    have hkey : (wf.deps.lookup a).isSome := by rw [hneeds]; rfl
    obtain ⟨hvisited, hall⟩ := hrest hnone
    exact hvisited.search.cleared.acyclic a (hall a (mem_keys_iff.mp hkey)) (transGen_edge ha hkey)

theorem job_of_lookup {a : String} {needs : List String} (h : wf.deps.lookup a = some needs) :
    ∃ job, (a, job) ∈ wf.jobs ∧ job.needs = needs := by
  obtain ⟨l₁, l₂, hsplit, -⟩ := List.lookup_eq_some_iff.mp h
  have hmem : (a, needs) ∈ wf.deps := by rw [hsplit]; simp
  obtain ⟨⟨id, job⟩, hjob, heq⟩ := List.mem_map.mp (List.mem_reverse.mp hmem)
  cases heq
  exact ⟨job, hjob, rfl⟩

/-- Where the ids are different, a job waits for what its entry says. -/
theorem needs_iff (h : (wf.jobs.map Prod.fst).Nodup) {a b : String} :
    wf.Needs a b ↔ ∃ job, (a, job) ∈ wf.jobs ∧ b ∈ job.needs := by
  constructor
  · rintro ⟨needs, hneeds, hb⟩
    obtain ⟨job, hjob, rfl⟩ := job_of_lookup hneeds
    exact ⟨job, hjob, hb⟩
  · rintro ⟨job, hjob, hb⟩
    obtain ⟨needs, hneeds⟩ := Option.isSome_iff_exists.mp
      (mem_keys_iff.mpr (List.mem_map_of_mem hjob))
    obtain ⟨job', hjob', rfl⟩ := job_of_lookup hneeds
    cases List.inj_on_of_nodup_map h hjob hjob' rfl
    exact ⟨_, hneeds, hb⟩

/-- **The search finds a cycle if and only if there is one**, and what it finds is one. -/
theorem findCycle_exact (wf : Workflow Y) :
    (wf.findCycle.isSome ↔ ∃ a, TransGen wf.Needs a a) ∧
      ∀ c ∈ wf.findCycle, IsCycle wf.Needs c := by
  obtain ⟨hcycle, hnone⟩ := @findCycle_spec Y wf
  refine ⟨⟨fun hsome => ?_, fun ⟨a, ha⟩ => ?_⟩, hcycle⟩
  · obtain ⟨c, hc⟩ := Option.isSome_iff_exists.mp hsome
    exact (hcycle c hc).transGen
  · rw [Option.isSome_iff_ne_none]
    exact fun h => hnone h a ha

end HeyoCi.Workflow

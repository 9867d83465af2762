import HeyoCi.Plan.Build
import HeyoCi.Workflow.Cycle

/-!
# The order of a plan

* `indicesOf`, `takeOut`, `orderLoop`: the loop of the source, with the indices it removes;
  **`orderLoop_eq`**: it is `orderFrom`;
* `Expands`: cells that a workflow expands to; `expands_cellsOf`;
* **`orderFrom_total`**: some cell is ready as long as cells remain, so the loop ends with all of them;
* `Rounds`: the cells of a round, in the order they came in; `rounds_of_orderFrom`;
* `Behind`: a cell comes behind all cells it needs; `behind_of_orderFrom`;
* **`topologicalOrder_total`**: what the order of an accepted workflow is.
-/

namespace HeyoCi

/-! ## The loop of the source -/

section Removal

variable {α : Type} (p : α → Bool)

/-- The indices of some items. -/
def indicesOf (l : List α) : List Nat := (l.zipIdx.filter fun ai => p ai.1).map Prod.snd

/-- Remove the items at some indices in turn, and gather them. -/
def takeOut : List Nat → List α → List α → List α × List α
  | [], wave, l => (wave, l)
  | i :: is, wave, l => takeOut is (wave ++ l[i]?.toList) (l.eraseIdx i)

variable {p}

theorem indicesOf_concat (l : List α) (a : α) :
    indicesOf p (l ++ [a]) = indicesOf p l ++ if p a then [l.length] else [] := by
  rw [indicesOf, List.zipIdx_append, List.filter_append, List.map_append, indicesOf]
  by_cases h : p a <;> simp [h]

theorem length_indicesOf (l : List α) : (indicesOf p l).length = (l.filter p).length := by
  induction l using List.reverseRecOn with
  | nil => rfl
  | append_singleton l a ih =>
    rw [indicesOf_concat, List.length_append, ih, List.filter_append, List.length_append]
    by_cases h : p a <;> simp [h]

theorem indicesOf_isEmpty (l : List α) : (indicesOf p l).isEmpty = (l.filter p).isEmpty := by
  rw [Bool.eq_iff_iff, List.isEmpty_iff_length_eq_zero, List.isEmpty_iff_length_eq_zero,
    length_indicesOf]

/-- From the last to the first, an index is where it was. -/
theorem takeOut_indicesOf (l wave rest : List α) :
    takeOut (indicesOf p l).reverse wave (l ++ rest) =
      (wave ++ (l.filter p).reverse, l.filter (fun a => !p a) ++ rest) := by
  induction l using List.reverseRecOn generalizing wave rest with
  | nil => simp [indicesOf, takeOut]
  | append_singleton l a ih =>
    rw [indicesOf_concat]
    by_cases h : p a
    · have hget : (l ++ [a] ++ rest)[l.length]? = some a := by simp
      have herase : (l ++ [a] ++ rest).eraseIdx l.length = l ++ rest := by
        rw [List.append_assoc, List.eraseIdx_append_of_length_le (Nat.le_refl _), Nat.sub_self]
        rfl
      rw [if_pos h, List.reverse_append, List.reverse_singleton, List.singleton_append, takeOut, hget,
        herase, ih]
      simp [h]
    · rw [if_neg h, List.append_nil, List.append_assoc, ih]
      simp [h]

end Removal

/-- The loop of `topological_order`: the cells in order, the bases that are done, and what remains.
A wave is removed from its last index to its first and turned round. -/
def orderLoop (allBases : List String) :
    Nat → List PlannedJob → List String → List PlannedJob → Except PlanError (List PlannedJob)
  | _, ordered, _, [] => .ok ordered
  | 0, _, _, remaining => .error (.unsatisfiable (stuck allBases remaining))
  | waves + 1, ordered, done, remaining =>
    let indices := indicesOf (ready done) remaining
    if indices.isEmpty then .error (.unsatisfiable (stuck allBases remaining))
    else
      let (wave, remaining) := takeOut indices.reverse [] remaining
      let wave := wave.reverse
      orderLoop allBases waves (ordered ++ wave) (done ++ wave.map (·.baseId)) remaining

theorem takeOut_ready (done : List String) (remaining : List PlannedJob) :
    takeOut (indicesOf (ready done) remaining).reverse [] remaining =
      ((remaining.filter (ready done)).reverse, remaining.filter fun j => !ready done j) := by
  simpa using takeOut_indicesOf (p := ready done) remaining [] []

/-- **The loop takes out the ready cells, in their order.** -/
theorem orderLoop_eq (allBases : List String) (waves : Nat) (ordered : List PlannedJob)
    (done : List String) (remaining : List PlannedJob) :
    orderLoop allBases waves ordered done remaining =
      (orderFrom allBases waves done remaining).map (ordered ++ ·) := by
  induction waves generalizing ordered done remaining with
  | zero => cases remaining <;> simp [orderLoop, orderFrom, Except.map]
  | succ waves ih =>
    cases remaining with
    | nil => simp [orderLoop, orderFrom, Except.map]
    | cons j rest =>
      rw [orderLoop, orderFrom]
      · dsimp only
        rw [takeOut_ready, indicesOf_isEmpty]
        split
        · rfl
        · dsimp only
          rw [List.reverse_reverse, ih]
          cases orderFrom allBases waves (done ++ ((j :: rest).filter (ready done)).map (·.baseId))
            ((j :: rest).filter fun j => !ready done j) <;> simp [Except.map]
      · exact List.cons_ne_nil j rest
      · exact List.cons_ne_nil j rest

/-! ## Progress -/

variable {allBases done : List String} {remaining ordered : List PlannedJob} {waves : Nat}

theorem orderFrom_succ (hne : remaining ≠ []) : orderFrom allBases (waves + 1) done remaining =
    if (remaining.filter (ready done)).isEmpty then .error (.unsatisfiable (stuck allBases remaining))
    else (orderFrom allBases waves (done ++ (remaining.filter (ready done)).map (·.baseId))
      (remaining.filter fun j => !ready done j)).map (remaining.filter (ready done) ++ ·) := by
  cases remaining with
  | nil => exact absurd rfl hne
  | cons j rest => rfl

open Relation in
/-- **As long as cells remain one of them is ready**: the order is reached, if every need is done or
has a cell, and no base needs itself over others. -/
theorem orderFrom_total {R : String → String → Prop} (hacyclic : ∀ a, ¬ TransGen R a a)
    (hcell : ∀ c ∈ remaining, ∀ n ∈ c.needs, R c.baseId n)
    (hknown : ∀ c ∈ remaining, ∀ n ∈ c.needs, n ∈ done ∨ ∃ c' ∈ remaining, c'.baseId = n)
    (hwaves : remaining.length ≤ waves) :
    ∃ ordered, orderFrom allBases waves done remaining = .ok ordered := by
  induction waves generalizing done remaining with
  | zero =>
    obtain rfl : remaining = [] := List.length_eq_zero_iff.mp (Nat.le_zero.mp hwaves)
    exact ⟨[], rfl⟩
  | succ waves ih =>
    by_cases hne : remaining = []
    · subst hne
      exact ⟨[], rfl⟩
    · have hbases : remaining.map (·.baseId) ≠ [] := by simpa using hne
      obtain ⟨a, ha, hsource⟩ := Cycles.exists_source hbases fun a _ => hacyclic a
      obtain ⟨c, hc, rfl⟩ := List.mem_map.mp ha
      have hready : ready done c := by
        refine List.all_eq_true.mpr fun n hn => List.contains_iff_mem.mpr ?_
        rcases hknown c hc n hn with hdone | ⟨c', hc', rfl⟩
        · exact hdone
        · exact absurd (hcell c hc _ hn) (hsource _ (List.mem_map_of_mem hc'))
      have hwave : c ∈ remaining.filter (ready done) := List.mem_filter.mpr ⟨hc, hready⟩
      have hlen := List.length_eq_length_filter_add (l := remaining) (ready done)
      have hpos := List.length_pos_of_mem hwave
      have hknown' : ∀ c ∈ remaining.filter (fun j => !ready done j), ∀ n ∈ c.needs,
          n ∈ done ++ (remaining.filter (ready done)).map (·.baseId) ∨
            ∃ c' ∈ remaining.filter (fun j => !ready done j), c'.baseId = n := by
        intro c hc n hn
        rcases hknown c (List.mem_filter.mp hc).1 n hn with hdone | ⟨c', hc', rfl⟩
        · exact Or.inl (List.mem_append_left _ hdone)
        · by_cases hr : ready done c'
          · exact Or.inl (List.mem_append_right _
              (List.mem_map_of_mem (List.mem_filter.mpr ⟨hc', hr⟩)))
          · exact Or.inr ⟨c', List.mem_filter.mpr ⟨hc', by simpa using hr⟩, rfl⟩
      obtain ⟨later, hlater⟩ := ih (fun c hc => hcell c (List.mem_filter.mp hc).1) hknown' (by omega)
      refine ⟨remaining.filter (ready done) ++ later, ?_⟩
      rw [orderFrom_succ hne, hlater, if_neg]
      · rfl
      · rw [List.isEmpty_iff]
        exact List.ne_nil_of_mem hwave

/-- The order by its first wave and the others. -/
theorem orderFrom_cases (h : orderFrom allBases waves done remaining = .ok ordered) :
    (remaining = [] ∧ ordered = []) ∨ ∃ n later, waves = n + 1 ∧
      orderFrom allBases n (done ++ (remaining.filter (ready done)).map (·.baseId))
        (remaining.filter fun j => !ready done j) = .ok later ∧
      ordered = remaining.filter (ready done) ++ later := by
  by_cases hne : remaining = []
  · subst hne
    rw [orderFrom.eq_def] at h
    cases h
    exact Or.inl ⟨rfl, rfl⟩
  · cases waves with
    | zero =>
      cases remaining with
      | nil => exact absurd rfl hne
      | cons j rest => cases h
    | succ n =>
      rw [orderFrom_succ hne, Loop.guard_ok_iff] at h
      obtain ⟨later, hlater, rfl⟩ := Descent.map_ok.mp h.2
      exact Or.inr ⟨n, later, rfl, hlater, rfl⟩

/-! ## Rounds -/

/-- The bases that are done after some rounds. -/
def doneAfter (rounds : List (List PlannedJob)) (i : Nat) : List String :=
  (rounds.take i).flatten.map (·.baseId)

/-- Cells in rounds: those of a round are ready by then and were not before, and keep the order they
came in. -/
def Rounds (done : List String) (jobs : List PlannedJob) (rounds : List (List PlannedJob)) : Prop :=
  ∀ i round, rounds[i]? = some round → round = jobs.filter fun j =>
    ready (done ++ doneAfter rounds i) j &&
      (List.range i).all fun k => !ready (done ++ doneAfter rounds k) j

theorem doneAfter_cons (round : List PlannedJob) (rounds : List (List PlannedJob)) (i : Nat) :
    doneAfter (round :: rounds) (i + 1) = round.map (·.baseId) ++ doneAfter rounds i := by
  simp [doneAfter]

/-- **The order goes by rounds.** -/
theorem rounds_of_orderFrom (h : orderFrom allBases waves done remaining = .ok ordered) :
    ∃ rounds, ordered = rounds.flatten ∧ Rounds done remaining rounds := by
  induction waves generalizing done remaining ordered with
  | zero =>
    rcases orderFrom_cases h with ⟨-, rfl⟩ | ⟨n, -, hn, -⟩
    · exact ⟨[], rfl, fun i round hround => by simp at hround⟩
    · exact absurd hn (Nat.succ_ne_zero n).symm
  | succ waves ih =>
    rcases orderFrom_cases h with ⟨-, rfl⟩ | ⟨n, later, hn, hlater, rfl⟩
    · exact ⟨[], rfl, fun i round hround => by simp at hround⟩
    · obtain rfl : waves = n := Nat.succ.inj hn
      obtain ⟨rounds, rfl, hrounds⟩ := ih hlater
      refine ⟨remaining.filter (ready done) :: rounds, rfl, fun i round hround => ?_⟩
      cases i with
      | zero =>
        rw [List.getElem?_cons_zero, Option.some_inj] at hround
        rw [← hround]
        simp [doneAfter]
      | succ i =>
        rw [List.getElem?_cons_succ] at hround
        rw [hrounds i round hround, List.filter_filter]
        congr 1
        funext j
        rw [doneAfter_cons, List.range_succ_eq_map, List.all_cons, List.all_map, List.append_assoc]
        have hzero : doneAfter (remaining.filter (ready done) :: rounds) 0 = [] := rfl
        simp only [Function.comp_def, doneAfter_cons, hzero, List.append_nil, List.append_assoc]
        rw [Bool.and_assoc]
        congr 1
        exact Bool.and_comm _ _

/-! ## What a cell waits for -/

/-- A cell comes behind all cells of the bases it needs. -/
def Behind (jobs ordered : List PlannedJob) : Prop :=
  ∀ pre j post, ordered = pre ++ j :: post → ∀ c ∈ jobs, c.baseId ∈ j.needs → c ∈ pre

/-- **A cell comes behind all cells it needs**, if the cells of a base have the same needs. -/
theorem behind_of_orderFrom (h : orderFrom allBases waves done remaining = .ok ordered)
    (hsame : ∀ c ∈ remaining, ∀ c' ∈ remaining, c.baseId = c'.baseId → c.needs = c'.needs)
    (hnew : ∀ c ∈ remaining, c.baseId ∉ done) : Behind remaining ordered := by
  induction waves generalizing done remaining ordered with
  | zero =>
    rcases orderFrom_cases h with ⟨-, rfl⟩ | ⟨n, -, hn, -⟩
    · exact fun pre j post hsplit => absurd hsplit.symm (by simp)
    · exact absurd hn (Nat.succ_ne_zero n).symm
  | succ waves ih =>
    rcases orderFrom_cases h with ⟨-, rfl⟩ | ⟨n, later, hn, hlater, rfl⟩
    · exact fun pre j post hsplit => absurd hsplit.symm (by simp)
    · obtain rfl : waves = n := Nat.succ.inj hn
      have hlate : Behind (remaining.filter fun j => !ready done j) later := by
        refine ih hlater ?_ fun c hc hdone => ?_
        · exact fun c hc c' hc' => hsame c (List.mem_filter.mp hc).1 c' (List.mem_filter.mp hc').1
        · obtain ⟨hmem, hnot⟩ := List.mem_filter.mp hc
          rcases List.mem_append.mp hdone with hdone | hwave
          · exact hnew c hmem hdone
          · obtain ⟨w, hw, hbase⟩ := List.mem_map.mp hwave
            obtain ⟨hw, hready⟩ := List.mem_filter.mp hw
            rw [ready, hsame w hw c hmem hbase] at hready
            rw [ready, hready] at hnot
            cases hnot
      have hstep : ∀ pre j post, later = pre ++ j :: post → ∀ c ∈ remaining,
          c.baseId ∈ j.needs → c ∈ remaining.filter (ready done) ++ pre := by
        intro pre j post hsplit c hc hneed
        by_cases hr : ready done c
        · exact List.mem_append_left _ (List.mem_filter.mpr ⟨hc, hr⟩)
        · refine List.mem_append_right _ (hlate pre j post hsplit c ?_ hneed)
          exact List.mem_filter.mpr ⟨hc, by simpa using hr⟩
      intro pre j post hsplit c hc hneed
      rcases List.append_eq_append_iff.mp hsplit with ⟨mid, rfl, hlater⟩ | ⟨mid, hwave, hpost⟩
      · exact hstep mid j post hlater c hc hneed
      · cases mid with
        | nil =>
          have hmem := hstep [] j post hpost.symm c hc hneed
          rwa [hwave, List.append_nil, List.append_nil] at hmem
        | cons j' mid =>
          obtain ⟨rfl, -⟩ := List.cons_eq_cons.mp hpost
          have hmem : j ∈ remaining.filter (ready done) := by rw [hwave]; simp
          have hready := (List.mem_filter.mp hmem).2
          have hdone := List.all_eq_true.mp hready _ hneed
          exact absurd (List.contains_iff_mem.mp hdone) (hnew c hc)

/-! ## Cells of a workflow -/

section Expansion

variable {Y F : Type} {y : YamlCrate Y} {fl : Expr.Floats F} {wf : Workflow Y}

/-- The cells are cells of the workflow's jobs, at least one of each. -/
structure Expands (wf : Workflow Y) (cells : List PlannedJob) : Prop where
  ofJob : ∀ c ∈ cells, ∃ job, (c.baseId, job) ∈ wf.jobs ∧ c.needs = job.needs
  full : ∀ entry ∈ wf.jobs, ∃ c ∈ cells, c.baseId = entry.1

theorem expandMatrix_ne_nil {id : String} {job : Job Y} {combos : List Json.Obj}
    (h : expandMatrix y id job = .ok combos) : combos ≠ [] := by
  unfold expandMatrix at h
  split at h
  · cases h
    exact List.cons_ne_nil _ _
  · obtain ⟨parts, -, h⟩ := Loop.bind_ok_iff.mp h
    obtain ⟨product, -, h⟩ := Loop.bind_ok_iff.mp h
    obtain ⟨hne, h⟩ := Loop.guard_ok_iff.mp h
    cases h
    exact fun hnil => hne (List.isEmpty_iff.mpr hnil)

theorem draftsOf_ok {entry : String × Job Y} {ds : List (Draft Y)} (h : draftsOf y entry = .ok ds) :
    ds ≠ [] ∧ ∀ d ∈ ds, (d.id, d.job) = entry ∧ d.job.target = .ok d.target := by
  obtain ⟨combos, hcombos, h⟩ := Loop.bind_ok_iff.mp h
  obtain ⟨target, htarget, h⟩ := Loop.bind_ok_iff.mp h
  have hne := expandMatrix_ne_nil hcombos
  cases h
  refine ⟨by simpa using hne, fun d hd => ?_⟩
  obtain ⟨⟨mtx, index⟩, -, rfl⟩ := List.mem_map.mp hd
  exact ⟨rfl, Loop.mapError_ok_iff.mp htarget⟩

/-- A draft is of a job of the file, with its target. -/
theorem draft_written {drafts : List (List (Draft Y))}
    (h : Loop.mapEach (draftsOf y) wf.jobs = .ok drafts) {d : Draft Y} (hd : d ∈ drafts.flatten) :
    (d.id, d.job) ∈ wf.jobs ∧ d.job.target = .ok d.target := by
  obtain ⟨ds, hds, hmem⟩ := List.mem_flatten.mp hd
  have himage : (.ok ds : Except PlanError _) ∈ wf.jobs.map (draftsOf y) := by
    rw [Loop.mapEach_ok_iff.mp h]
    exact List.mem_map_of_mem hds
  obtain ⟨entry, hentry, hof⟩ := List.mem_map.mp himage
  obtain ⟨heq, htarget⟩ := (draftsOf_ok hof).2 d hmem
  exact ⟨heq ▸ hentry, htarget⟩

theorem mem_cellsOf {drafts : List (Draft Y)} {c : PlannedJob} (h : c ∈ cellsOf fl drafts) :
    ∃ d ∈ drafts, c.baseId = d.id ∧ c.needs = d.job.needs := by
  obtain ⟨⟨d, key⟩, hmem, rfl⟩ := List.mem_map.mp h
  exact ⟨d, (List.of_mem_zip hmem).1, rfl, rfl⟩

theorem cell_of_draft (fl : Expr.Floats F) {drafts : List (Draft Y)} {d : Draft Y}
    (h : d ∈ drafts) : ∃ c ∈ cellsOf fl drafts, c.baseId = d.id := by
  have hlen : drafts.length ≤ (keysOf fl drafts).length := Nat.le_of_eq (Fresh.length_assign _ _).symm
  have hfst : d ∈ (drafts.zip (keysOf fl drafts)).map Prod.fst := by rwa [List.map_fst_zip hlen]
  obtain ⟨dk, hdk, rfl⟩ := List.mem_map.mp hfst
  exact ⟨_, List.mem_map_of_mem hdk, rfl⟩

/-- **The matrices of the jobs expand the workflow.** -/
theorem expands_cellsOf {drafts : List (List (Draft Y))}
    (h : Loop.mapEach (draftsOf y) wf.jobs = .ok drafts) :
    Expands wf (cellsOf fl drafts.flatten) := by
  refine ⟨fun c hc => ?_, fun entry hentry => ?_⟩
  · obtain ⟨d, hd, hbase, hneeds⟩ := mem_cellsOf hc
    exact ⟨d.job, hbase ▸ (draft_of_mem h hd).1, hneeds⟩
  · have himage : draftsOf y entry ∈ drafts.map .ok := by
      rw [← Loop.mapEach_ok_iff.mp h]
      exact List.mem_map_of_mem hentry
    obtain ⟨ds, hds, hok⟩ := List.mem_map.mp himage
    obtain ⟨hne, hall⟩ := draftsOf_ok hok.symm
    obtain ⟨d, hd⟩ := List.exists_mem_of_ne_nil ds hne
    obtain ⟨c, hc, hbase⟩ := cell_of_draft fl (List.mem_flatten_of_mem hds hd)
    exact ⟨c, hc, hbase.trans (congrArg Prod.fst (hall d hd).1)⟩

/-- The order of the cells of an accepted workflow. -/
theorem order_of_expands {path yaml : String} (hparse : Workflow.parse y path yaml = .ok wf)
    {cells : List PlannedJob} (h : Expands wf cells) : ∃ rounds : List (List PlannedJob),
      topologicalOrder cells = .ok rounds.flatten ∧ rounds.flatten.Perm cells ∧
        Behind cells rounds.flatten ∧ Rounds [] cells rounds := by
  obtain ⟨-, -, -, -, -, -, -, -, hvalid⟩ := Workflow.parse_ok hparse
  obtain ⟨hids, hjobs, hcycle⟩ := Workflow.validate_ok hvalid
  have hneeds : ∀ c ∈ cells, ∀ n ∈ c.needs, wf.Needs c.baseId n := by
    intro c hc n hn
    obtain ⟨job, hjob, heq⟩ := h.ofJob c hc
    exact (Workflow.needs_iff hids).mpr ⟨job, hjob, heq ▸ hn⟩
  have hknown : ∀ c ∈ cells, ∀ n ∈ c.needs, n ∈ ([] : List String) ∨ ∃ c' ∈ cells, c'.baseId = n := by
    intro c hc n hn
    obtain ⟨job, hjob, heq⟩ := h.ofJob c hc
    obtain ⟨-, -, hall, -⟩ := Workflow.checkJob_ok (hjobs _ hjob)
    obtain ⟨entry, hentry, rfl⟩ := List.mem_map.mp (hall n (heq ▸ hn)).1
    exact Or.inr (h.full entry hentry)
  have hsame : ∀ c ∈ cells, ∀ c' ∈ cells, c.baseId = c'.baseId → c.needs = c'.needs := by
    intro c hc c' hc' hbase
    obtain ⟨job, hjob, heq⟩ := h.ofJob c hc
    obtain ⟨job', hjob', heq'⟩ := h.ofJob c' hc'
    have hentry : (c.baseId, job) = (c'.baseId, job') :=
      List.inj_on_of_nodup_map hids hjob hjob' hbase
    rw [heq, heq', (Prod.mk.inj hentry).2]
  obtain ⟨ordered, hordered⟩ : ∃ ordered, topologicalOrder cells = .ok ordered :=
    orderFrom_total (Workflow.findCycle_spec.2 hcycle) hneeds hknown (Nat.le_refl cells.length)
  obtain ⟨rounds, rfl, hrounds⟩ := rounds_of_orderFrom hordered
  exact ⟨rounds, hordered, topologicalOrder_perm hordered,
    behind_of_orderFrom hordered hsame (fun _ _ => List.not_mem_nil), hrounds⟩

/-- **The order of an accepted workflow**: there is one, the loop of the source ends with it, no cell
is lost or made up, each is behind all cells it needs, and a round keeps the order of its cells. -/
theorem topologicalOrder_total (y : YamlCrate Y) (fl : Expr.Floats F) (path yaml : String)
    (wf : Workflow Y) (hparse : Workflow.parse y path yaml = .ok wf)
    (drafts : List (List (Draft Y))) (hdrafts : Loop.mapEach (draftsOf y) wf.jobs = .ok drafts) :
    ∃ rounds : List (List PlannedJob),
      topologicalOrder (cellsOf fl drafts.flatten) = .ok rounds.flatten ∧
      orderLoop ((cellsOf fl drafts.flatten).map (·.baseId)) (cellsOf fl drafts.flatten).length [] []
        (cellsOf fl drafts.flatten) = .ok rounds.flatten ∧
      rounds.flatten.Perm (cellsOf fl drafts.flatten) ∧
      Behind (cellsOf fl drafts.flatten) rounds.flatten ∧
      Rounds [] (cellsOf fl drafts.flatten) rounds := by
  obtain ⟨rounds, horder, hperm, hbehind, hrounds⟩ := order_of_expands hparse (expands_cellsOf hdrafts)
  refine ⟨rounds, horder, ?_, hperm, hbehind, hrounds⟩
  rw [orderLoop_eq]
  exact Descent.map_ok.mpr ⟨_, horder, List.nil_append _⟩

private def testFirst : List (String × Job Json) :=
  [("test", { Job.ofCommand "cargo test" with needs := ["build"] }),
    ("build", { Job.ofCommand "cargo build" with
      strategy := some ⟨some (.obj [("target", .arr [.str "arm", .str "x86"])]), none, true⟩ })]

private def testFirstDrafts : Option (Workflow Json × List (List (Draft Json))) :=
  (Workflow.parse (.ofJobs testFirst) "build.yml" "").toOption.bind fun wf =>
    (Loop.mapEach (draftsOf (.ofJobs testFirst)) wf.jobs).toOption.map (Prod.mk wf)

/-- A job that is written before the cells it needs. -/
theorem testFirst_ordered : ∃ (cells : List PlannedJob) (rounds : List (List PlannedJob)),
    cells.map (·.baseId) = ["test", "build", "build"] ∧
      topologicalOrder cells = .ok rounds.flatten ∧ rounds.flatten.Perm cells ∧
      Behind cells rounds.flatten ∧ Rounds [] cells rounds := by
  have hbases : testFirstDrafts.map (fun (_, drafts) =>
      (cellsOf Expr.Floats.absent drafts.flatten).map (·.baseId)) =
        some ["test", "build", "build"] := by decide
  obtain ⟨⟨wf, drafts⟩, hmem, hcells⟩ := Option.map_eq_some_iff.mp hbases
  obtain ⟨wf', hwf, hmem⟩ := Option.bind_eq_some_iff.mp hmem
  obtain ⟨drafts', hdrafts, hmem⟩ := Option.map_eq_some_iff.mp hmem
  cases hmem
  obtain ⟨rounds, horder, -, hperm, hbehind, hrounds⟩ := topologicalOrder_total (.ofJobs testFirst)
    Expr.Floats.absent "build.yml" "" wf (Loop.ok_of_toOption hwf) drafts (Loop.ok_of_toOption hdrafts)
  exact ⟨_, rounds, hcells, horder, hperm, hbehind, hrounds⟩

end Expansion

end HeyoCi

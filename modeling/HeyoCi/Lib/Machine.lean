import Mathlib.Logic.Relation
import Mathlib.Tactic.SplitIfs

/-!
# Labelled machines and their guarded runs

A machine has a set of initial states and a partial step on labels. Runs are taken under a guard
`ok` on the state before each step and its label, so that a law that only holds while certain steps
are avoided is a law about `Reachable ok`.

* `Next`, `Reach`, `Reachable`: one guarded step, a guarded run, the states such runs reach;
* **`Reachable.inv`**: an inductive invariant holds in every reachable state;
* `run`: executing a list of labels;
* `Throughout`: a law of every step of the run of a list of labels, `throughout_iff_split`.
-/

universe u v

/-- A labelled machine: its initial states and its partial step. -/
structure Machine (σ : Type u) (α : Type v) where
  init : σ → Prop
  step : σ → α → Option σ

namespace Machine

variable {σ : Type u} {α : Type v} (m : Machine σ α)

/-- The guard that allows every step. -/
def anyStep : σ → α → Prop := fun _ _ => True

/-- One step whose label the guard allows. -/
def Next (ok : σ → α → Prop) (s s' : σ) : Prop := ∃ a, ok s a ∧ m.step s a = some s'

/-- A run of allowed steps. -/
def Reach (ok : σ → α → Prop) : σ → σ → Prop := Relation.ReflTransGen (m.Next ok)

/-- The states allowed steps lead to from an initial state. -/
def Reachable (ok : σ → α → Prop) (s : σ) : Prop := ∃ s₀, m.init s₀ ∧ m.Reach ok s₀ s

variable {m}

section Reach

variable {ok ok' : σ → α → Prop} {s s' s'' : σ}

theorem Reach.refl : m.Reach ok s s := Relation.ReflTransGen.refl

theorem Reach.tail (h : m.Reach ok s s') {a : α} (ha : ok s' a) (hs : m.step s' a = some s'') :
    m.Reach ok s s'' :=
  Relation.ReflTransGen.tail h ⟨a, ha, hs⟩

theorem Reach.single {a : α} (ha : ok s a) (hs : m.step s a = some s') : m.Reach ok s s' :=
  Reach.refl.tail ha hs

theorem Reach.trans (h : m.Reach ok s s') (h' : m.Reach ok s' s'') : m.Reach ok s s'' :=
  Relation.ReflTransGen.trans h h'

theorem Reach.mono (hok : ∀ s a, ok s a → ok' s a) (h : m.Reach ok s s') : m.Reach ok' s s' := by
  refine Relation.ReflTransGen.mono (fun a b hn => ?_) _ _ h
  obtain ⟨l, hl, hs⟩ := hn
  exact ⟨l, hok a l hl, hs⟩

/-- A property that allowed steps keep is kept by runs. -/
theorem Reach.inv (I : σ → Prop) (hstep : ∀ s a s', I s → ok s a → m.step s a = some s' → I s')
    (h : m.Reach ok s s') (hI : I s) : I s' := by
  induction h with
  | refl => exact hI
  | tail _ hn ih =>
    obtain ⟨a, ha, hs⟩ := hn
    exact hstep _ a _ ih ha hs

theorem Reachable.init (h : m.init s) : m.Reachable ok s := ⟨s, h, Reach.refl⟩

theorem Reachable.step (h : m.Reachable ok s) {a : α} (ha : ok s a) (hs : m.step s a = some s') :
    m.Reachable ok s' := by
  obtain ⟨s₀, h₀, hr⟩ := h
  exact ⟨s₀, h₀, hr.tail ha hs⟩

theorem Reachable.mono (hok : ∀ s a, ok s a → ok' s a) (h : m.Reachable ok s) :
    m.Reachable ok' s := by
  obtain ⟨s₀, h₀, hr⟩ := h
  exact ⟨s₀, h₀, hr.mono hok⟩

/-- **Invariant induction.** What holds initially and is kept by every allowed step of a reachable
state holds in every reachable state. -/
theorem Reachable.inv (I : σ → Prop) (h₀ : ∀ s, m.init s → I s)
    (hstep : ∀ s a s', m.Reachable ok s → I s → ok s a → m.step s a = some s' → I s')
    (h : m.Reachable ok s) : I s := by
  obtain ⟨s₀, hs₀, hr⟩ := h
  have key : ∀ t a t', m.Reachable ok t ∧ I t → ok t a → m.step t a = some t' →
      m.Reachable ok t' ∧ I t' := by
    rintro t a t' ⟨hrt, hI⟩ ha hs
    exact ⟨hrt.step ha hs, hstep t a t' hrt hI ha hs⟩
  exact (Reach.inv (fun t => m.Reachable ok t ∧ I t) key hr ⟨Reachable.init hs₀, h₀ _ hs₀⟩).2

end Reach

/-! ## Executing labels -/

variable (m)

/-- Execute a list of labels. -/
def run : σ → List α → Option σ
  | s, [] => some s
  | s, a :: as => (m.step s a).bind fun s' => run s' as

variable {m} {s s' : σ} {as bs : List α}

theorem run_append : m.run s (as ++ bs) = (m.run s as).bind fun t => m.run t bs := by
  induction as generalizing s with
  | nil => rfl
  | cons a as ih =>
    simp only [List.cons_append, run]
    cases m.step s a with
    | none => rfl
    | some t => exact ih

theorem run_concat {a : α} : m.run s (as ++ [a]) = (m.run s as).bind fun t => m.step t a := by
  rw [run_append]
  congr 1
  funext t
  simp [run]

theorem reach_of_run (h : m.run s as = some s') : m.Reach anyStep s s' := by
  induction as generalizing s with
  | nil =>
    cases h
    exact Reach.refl
  | cons a as ih =>
    obtain ⟨t, ht, hr⟩ := Option.bind_eq_some_iff.mp h
    exact (Reach.single trivial ht).trans (ih hr)

theorem reachable_of_run (h₀ : m.init s) (h : m.run s as = some s') : m.Reachable anyStep s' :=
  ⟨s, h₀, reach_of_run h⟩

/-- A property that every step but an exceptional one keeps is kept by a run without an exceptional
step. -/
theorem kept_or_split {I : σ → Prop} {E : σ → α → σ → Prop} (hs : m.Reachable anyStep s) (hI : I s)
    (hstep : ∀ s a s', m.Reachable anyStep s → I s → m.step s a = some s' → I s' ∨ E s a s')
    (h : m.run s as = some s') : I s' ∨ ∃ pre a post t t', as = pre ++ a :: post ∧
      m.run s pre = some t ∧ m.step t a = some t' ∧ E t a t' := by
  induction as generalizing s with
  | nil =>
    cases h
    exact Or.inl hI
  | cons a as ih =>
    obtain ⟨t, ht, hrun⟩ := Option.bind_eq_some_iff.mp h
    rcases hstep s a t hs hI ht with hIt | hE
    · refine (ih (hs.step trivial ht) hIt hrun).imp_right ?_
      rintro ⟨pre, b, post, u, u', rfl, hu, hu', hE⟩
      refine ⟨a :: pre, b, post, u, u', rfl, ?_, hu', hE⟩
      simp only [run, ht, Option.bind_some, hu]
    · exact Or.inr ⟨[], a, as, s, t, rfl, rfl, ht, hE⟩

/-! ## Laws of every step of one run -/

variable (m) in
/-- `P` relates the two states of every step of the run of `as` from `s`. -/
def Throughout (P : σ → α → σ → Prop) : σ → List α → Prop
  | _, [] => True
  | s, a :: as => ∀ t, m.step s a = some t → P s a t ∧ Throughout P t as

/-- A law that can be decided of each step can be decided of a run. -/
def decThroughout (P : σ → α → σ → Prop) [∀ s a t, Decidable (P s a t)] :
    (s : σ) → (as : List α) → Decidable (m.Throughout P s as)
  | _, [] => .isTrue trivial
  | s, a :: as => match h : m.step s a with
    | none => .isTrue fun t ht => by
      rw [h] at ht
      cases ht
    | some t =>
      have := decThroughout P t as
      decidable_of_iff (P s a t ∧ m.Throughout P t as)
        ⟨fun hp u hu => by
          obtain rfl : t = u := Option.some.inj (h.symm.trans hu)
          exact hp, fun hp => hp t h⟩

instance (P : σ → α → σ → Prop) [∀ s a t, Decidable (P s a t)] (s : σ) (as : List α) :
    Decidable (m.Throughout P s as) := decThroughout P s as

variable {P Q : σ → α → σ → Prop}

/-- A law of every step is a law at every place where the run can be cut. -/
theorem throughout_iff_split : m.Throughout P s as ↔ ∀ pre a post t t', as = pre ++ a :: post →
    m.run s pre = some t → m.step t a = some t' → P t a t' := by
  induction as generalizing s with
  | nil => simp [Throughout]
  | cons b as ih =>
    constructor
    · intro h pre a post t t' hsplit hrun hstep
      cases pre with
      | nil =>
        cases hsplit
        cases hrun
        exact (h t' hstep).1
      | cons c pre =>
        simp only [List.cons_append, List.cons.injEq] at hsplit
        obtain ⟨rfl, hsplit⟩ := hsplit
        obtain ⟨u, hu, hrun⟩ := Option.bind_eq_some_iff.mp hrun
        exact ih.mp (h u hu).2 pre a post t t' hsplit hrun hstep
    · intro h u hu
      refine ⟨h [] b as s u rfl rfl hu, ih.mpr fun pre a post t t' hsplit hrun hstep => ?_⟩
      refine h (b :: pre) a post t t' (by rw [hsplit]; rfl) ?_ hstep
      simp only [run, hu, Option.bind_some, hrun]

/-- A step that breaks a law at the end of a run shows that the run does not follow it. -/
theorem not_throughout {a : α} {t t' : σ} (hrun : m.run s as = some t) (hstep : m.step t a = some t')
    (hP : ¬ P t a t') : ¬ m.Throughout P s (as ++ [a]) := fun h =>
  hP (throughout_iff_split.mp h as a [] t t' rfl hrun hstep)

/-- Along a run from a reachable state, a law of single reachable steps transfers. -/
theorem Throughout.congr (hs : m.Reachable anyStep s)
    (hPQ : ∀ s a s', m.Reachable anyStep s → m.step s a = some s' → (P s a s' ↔ Q s a s')) :
    m.Throughout P s as ↔ m.Throughout Q s as := by
  induction as generalizing s with
  | nil => exact Iff.rfl
  | cons a as ih =>
    refine forall_congr' fun t => forall_congr' fun ht => ?_
    exact and_congr (hPQ s a t hs ht) (ih (hs.step trivial ht))

/-- Along a run whose steps follow a law, an invariant that the law keeps brings about another
law. -/
theorem Throughout.of_inv {I : σ → Prop} (hs : m.Reachable anyStep s) (hI : I s)
    (hstep : ∀ s a s', m.Reachable anyStep s → I s → m.step s a = some s' → P s a s' →
      I s' ∧ Q s a s')
    (h : m.Throughout P s as) : m.Throughout Q s as := by
  induction as generalizing s with
  | nil => trivial
  | cons a as ih =>
    intro t ht
    obtain ⟨hP, hrest⟩ := h t ht
    obtain ⟨hIt, hQ⟩ := hstep s a t hs hI ht hP
    exact ⟨hQ, ih (hs.step trivial ht) hIt hrest⟩

/-- A property that a step keeps exactly when it follows a law holds of every state of a run exactly
when every step follows the law. -/
theorem throughout_inv_iff {I : σ → Prop} {L : σ → α → Prop} (hs : m.Reachable anyStep s) (hI : I s)
    (hstep : ∀ s a s', m.Reachable anyStep s → I s → m.step s a = some s' → (I s' ↔ L s a)) :
    m.Throughout (fun _ _ s' => I s') s as ↔ m.Throughout (fun s a _ => L s a) s as := by
  induction as generalizing s with
  | nil => exact Iff.rfl
  | cons a as ih =>
    refine forall_congr' fun t => forall_congr' fun ht => ?_
    have hone := hstep s a t hs hI ht
    constructor
    · rintro ⟨hIt, hrest⟩
      exact ⟨hone.mp hIt, (ih (hs.step trivial ht) hIt).mp hrest⟩
    · rintro ⟨hL, hrest⟩
      exact ⟨hone.mpr hL, (ih (hs.step trivial ht) (hone.mpr hL)).mpr hrest⟩

variable (m) in
/-- The step with this label follows the law. -/
def Lawful (P : σ → α → σ → Prop) : σ → α → Prop := fun s a => ∀ t, m.step s a = some t → P s a t

/-- A run whose steps follow a law is a run under that law as a guard. -/
theorem Throughout.reach (h : m.Throughout P s as) (hrun : m.run s as = some s') :
    m.Reach (m.Lawful P) s s' := by
  induction as generalizing s with
  | nil =>
    cases hrun
    exact Reach.refl
  | cons a as ih =>
    obtain ⟨t, ht, hrun⟩ := Option.bind_eq_some_iff.mp hrun
    have hfirst : m.Lawful P s a := fun u hu => (h u hu).1
    exact (Reach.single hfirst ht).trans (ih (h t ht).2 hrun)

/-- A property of every state of a run is one of its last state. -/
theorem Throughout.last {I : σ → Prop} (h : m.Throughout (fun _ _ s' => I s') s as) (hI : I s)
    (hrun : m.run s as = some s') : I s' :=
  Reach.inv I (fun _ _ t _ hlaw hs => hlaw t hs) (h.reach hrun) hI

theorem Throughout.mono (hPQ : ∀ s a s', P s a s' → Q s a s') (h : m.Throughout P s as) :
    m.Throughout Q s as := by
  induction as generalizing s with
  | nil => trivial
  | cons a as ih => exact fun t ht => ⟨hPQ _ _ _ (h t ht).1, ih (h t ht).2⟩

theorem throughout_append : m.Throughout P s (as ++ bs) ↔
    m.Throughout P s as ∧ ∀ t, m.run s as = some t → m.Throughout P t bs := by
  induction as generalizing s with
  | nil => simp [Throughout, run]
  | cons a as ih =>
    simp only [List.cons_append, Throughout, run, Option.bind_eq_some_iff, ih]
    constructor
    · intro h
      refine ⟨fun t ht => ⟨(h t ht).1, (h t ht).2.1⟩, ?_⟩
      rintro u ⟨t, ht, hu⟩
      exact (h t ht).2.2 u hu
    · rintro ⟨h, h'⟩ t ht
      exact ⟨(h t ht).1, (h t ht).2, fun u hu => h' u ⟨t, ht, hu⟩⟩

theorem throughout_and : m.Throughout (fun s a t => P s a t ∧ Q s a t) s as ↔
    m.Throughout P s as ∧ m.Throughout Q s as := by
  induction as generalizing s with
  | nil => simp [Throughout]
  | cons a as ih =>
    simp only [Throughout, ih]
    constructor
    · intro h
      exact ⟨fun t ht => ⟨(h t ht).1.1, (h t ht).2.1⟩, fun t ht => ⟨(h t ht).1.2, (h t ht).2.2⟩⟩
    · rintro ⟨h, h'⟩ t ht
      exact ⟨⟨(h t ht).1, (h' t ht).1⟩, (h t ht).2, (h' t ht).2⟩

/-- A law of labels alone, for the labels of a list. -/
theorem throughout_of_forall {p : α → Prop} (h : ∀ a ∈ as, p a) :
    m.Throughout (fun _ a _ => p a) s as := by
  induction as generalizing s with
  | nil => trivial
  | cons a as ih =>
    exact fun t _ => ⟨h a List.mem_cons_self, ih fun b hb => h b (List.mem_cons_of_mem a hb)⟩

end Machine

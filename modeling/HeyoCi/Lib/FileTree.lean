import Mathlib.Data.List.Infix

/-!
# File trees with symbolic links

A path is followed step by step. A link on the way sends the rest of the path to where its target
leads, so where a path leads, and through which directories, depends on the links it meets.

* `Step`, `Path`, `Node`: the steps of a path, a path, a tree of files, directories and links;
* `Node.at`, `Node.under`: what is at a position, and all that is below a directory, no link followed;
* `Spot`: a position and the positions on the way to it;
* `follow`, `resolve`: where a path leads, by allowed positions only, after so many links;
* **`resolve_ok_iff`**: a path leads somewhere by allowed positions exactly when it leads there at
  all and the positions on the way are allowed;
* **`within_of_noLinks`**: without links a path with no `..` does not leave where it starts.
-/

universe u v

namespace FileTree

/-- A step of a path. -/
inductive Step (N : Type u) where
  | here
  | up
  | name (n : N)
  deriving DecidableEq, Repr

structure Path (N : Type u) where
  absolute : Bool
  steps : List (Step N)
  deriving DecidableEq, Repr

inductive Node (N : Type u) (C : Type v) where
  | file (content : C)
  | dir (entries : List (N × Node N C))
  | link (target : Path N)

/-- Why a path leads nowhere, or a file is not read. -/
inductive PathError where
  | notFound
  | notDir
  | isDir
  /-- There are too many links on the way. -/
  | loop
  | denied
  /-- A position on the way is not allowed. -/
  | escapes
  deriving DecidableEq, Repr

/-- A position, and the positions on the way to it, the last one first. -/
structure Spot (N : Type u) where
  pos : List N
  before : List (List N)

namespace Spot

variable {N : Type u}

/-- The positions that were passed, and the one that is reached. -/
def seen (s : Spot N) : List (List N) := s.pos :: s.before

def move (s : Spot N) (p : List N) : Spot N := ⟨p, s.seen⟩

/-- The way to what is below. -/
def down (s : Spot N) : List N → Spot N
  | [] => s
  | n :: ns => (s.move (s.pos ++ [n])).down ns

/-- Every position on the way is at or below a directory. -/
def Within (base : List N) (s : Spot N) : Prop := ∀ p ∈ s.seen, base <+: p

theorem Within.pos {base : List N} {s : Spot N} (h : s.Within base) : base <+: s.pos :=
  h s.pos List.mem_cons_self

theorem within_move {base p : List N} {s : Spot N} :
    (s.move p).Within base ↔ base <+: p ∧ s.Within base := List.forall_mem_cons

/-- What is below a directory is where the directory is. -/
theorem within_down {base : List N} {s : Spot N} (ns : List N) :
    (s.down ns).Within base ↔ s.Within base := by
  induction ns generalizing s with
  | nil => exact Iff.rfl
  | cons n ns ih =>
    rw [down, ih, within_move]
    exact ⟨fun h => h.2, fun h => ⟨h.pos.trans (List.prefix_append s.pos [n]), h⟩⟩

/-- Go on to a position, if it is allowed. -/
def go (allowed : List N → Bool) (s : Spot N) (p : List N) : Except PathError (Spot N) :=
  if allowed p then .ok (s.move p) else .error .escapes

theorem go_bind {allowed : List N → Bool} {s s' : Spot N} {p : List N}
    {f : Spot N → Except PathError (Spot N)} :
    (s.go allowed p).bind f = .ok s' ↔ allowed p = true ∧ f (s.move p) = .ok s' := by
  unfold go
  split_ifs with h
  · simp [h, Except.bind]
  · simp [h, Except.bind]

end Spot

variable {N : Type u} {C : Type v}

/-! ## What is below a directory -/

mutual

/-- All nodes below a directory, by the names that lead to them. -/
def Node.under : Node N C → List (List N × Node N C)
  | .dir entries => entriesUnder entries
  | _ => []

def entriesUnder : List (N × Node N C) → List (List N × Node N C)
  | [] => []
  | (n, node) :: entries =>
    (([n], node) :: node.under.map fun x => (n :: x.1, x.2)) ++ entriesUnder entries

end

theorem under_file (content : C) : (Node.file content : Node N C).under = [] := rfl

theorem under_link (target : Path N) : (Node.link target : Node N C).under = [] := rfl

theorem under_dir (entries : List (N × Node N C)) :
    (Node.dir entries).under = entriesUnder entries := rfl

section Follow

variable [DecidableEq N]

/-- The node at a position. -/
def Node.at : Node N C → List N → Option (Node N C)
  | node, [] => some node
  | .dir entries, n :: ns => (entries.lookup n).bind fun node => node.at ns
  | _, _ :: _ => none

/-! ## Following a path -/

/-- What a step of a path asks for. -/
inductive Move (N : Type u) where
  | stay
  | goto (pos : List N)
  | jump (target : Path N)

variable (root : Node N C) (allowed : List N → Bool)

/-- A step from a position, which has to be that of a directory. -/
def stepAt (pos : List N) (step : Step N) : Except PathError (Move N) :=
  match root.at pos with
  | some (.dir entries) => match step with
    | .here => .ok .stay
    | .up => .ok (.goto pos.dropLast)
    | .name n => match entries.lookup n with
      | some (.link target) => .ok (.jump target)
      | some _ => .ok (.goto (pos ++ [n]))
      | none => .error .notFound
  | some _ => .error .notDir
  | none => .error .notFound

/-- Follow the steps of a path up to the first link, and hand what is left to `jump`. -/
def follow (jump : Spot N → List (Step N) → Except PathError (Spot N)) :
    Spot N → List (Step N) → Except PathError (Spot N)
  | s, [] => .ok s
  | s, step :: steps => match stepAt root s.pos step with
    | .error e => .error e
    | .ok .stay => follow jump s steps
    | .ok (.goto p) => (s.go allowed p).bind fun s => follow jump s steps
    | .ok (.jump target) => if target.absolute
      then (s.go allowed []).bind fun s => jump s (target.steps ++ steps)
      else jump s (target.steps ++ steps)

/-- Follow a path through at most `k` links. -/
def resolve : Nat → Spot N → List (Step N) → Except PathError (Spot N)
  | 0 => follow root allowed fun _ _ => .error .loop
  | k + 1 => follow root allowed (resolve k)

variable {root allowed}

/-! ## The positions on the way -/

/-- Positions that were passed stay passed. -/
theorem seen_follow {jump : Spot N → List (Step N) → Except PathError (Spot N)}
    (hjump : ∀ s steps s', jump s steps = .ok s' → ∀ p ∈ s.seen, p ∈ s'.seen) {s s' : Spot N}
    {steps : List (Step N)} (h : follow root allowed jump s steps = .ok s') :
    ∀ p ∈ s.seen, p ∈ s'.seen := by
  induction steps generalizing s with
  | nil =>
    cases h
    exact fun p hp => hp
  | cons step steps ih =>
    rw [follow] at h
    split at h
    · cases h
    · exact ih h
    · exact fun p hp => ih (Spot.go_bind.mp h).2 p (List.mem_cons_of_mem _ hp)
    · split_ifs at h
      · exact fun p hp => hjump _ _ _ (Spot.go_bind.mp h).2 p (List.mem_cons_of_mem _ hp)
      · exact hjump _ _ _ h

theorem seen_resolve {k : Nat} {s s' : Spot N} {steps : List (Step N)}
    (h : resolve root allowed k s steps = .ok s') : ∀ p ∈ s.seen, p ∈ s'.seen := by
  induction k generalizing s s' steps with
  | zero => exact seen_follow (fun _ _ _ h => by cases h) h
  | succ k ih => exact seen_follow (fun _ _ _ h => ih h) h

/-- Following by allowed positions only is following, by positions that are all allowed. -/
theorem follow_ok_iff {jump jump' : Spot N → List (Step N) → Except PathError (Spot N)}
    (hseen : ∀ s steps s', jump' s steps = .ok s' → ∀ p ∈ s.seen, p ∈ s'.seen)
    (hjump : ∀ s steps s', (∀ p ∈ s.seen, allowed p = true) → (jump s steps = .ok s' ↔
      jump' s steps = .ok s' ∧ ∀ p ∈ s'.seen, allowed p = true))
    {s s' : Spot N} {steps : List (Step N)} (hs : ∀ p ∈ s.seen, allowed p = true) :
    follow root allowed jump s steps = .ok s' ↔
      follow root (fun _ => true) jump' s steps = .ok s' ∧ ∀ p ∈ s'.seen, allowed p = true := by
  have hmove : ∀ {s : Spot N} {p : List N}, (∀ q ∈ s.seen, allowed q = true) → allowed p = true →
      ∀ q ∈ (s.move p).seen, allowed q = true := by
    intro s p hs hp q hq
    rcases List.mem_cons.mp hq with rfl | hq
    · exact hp
    · exact hs q hq
  induction steps generalizing s with
  | nil =>
    simp only [follow, Except.ok.injEq]
    exact ⟨by rintro rfl; exact ⟨rfl, hs⟩, fun h => h.1⟩
  | cons step steps ih =>
    simp only [follow]
    cases stepAt root s.pos step with
    | error e => simp
    | ok m =>
      cases m with
      | stay => exact ih hs
      | goto p =>
        simp only [Spot.go_bind, true_and]
        by_cases hp : allowed p = true
        · rw [and_iff_right hp]
          exact ih (hmove hs hp)
        · -- the position is on the way, and it is not allowed
          refine iff_of_false (fun h => hp h.1) fun h => hp ?_
          exact h.2 p (seen_follow hseen h.1 p List.mem_cons_self)
      | jump target =>
        by_cases ha : target.absolute = true
        · simp only [ha, if_true, Spot.go_bind, true_and]
          by_cases hp : allowed [] = true
          · rw [and_iff_right hp]
            exact hjump _ _ _ (hmove hs hp)
          · refine iff_of_false (fun h => hp h.1) fun h => hp ?_
            exact h.2 [] (hseen _ _ _ h.1 [] List.mem_cons_self)
        · simp only [ha, Bool.false_eq_true, if_false]
          exact hjump _ _ _ hs

/-- **A path leads somewhere by allowed positions only, exactly when it leads there and all positions
on the way are allowed.** -/
theorem resolve_ok_iff {k : Nat} {s s' : Spot N} {steps : List (Step N)}
    (hs : ∀ p ∈ s.seen, allowed p = true) : resolve root allowed k s steps = .ok s' ↔
      resolve root (fun _ => true) k s steps = .ok s' ∧ ∀ p ∈ s'.seen, allowed p = true := by
  induction k generalizing s s' steps with
  | zero => exact follow_ok_iff (fun _ _ _ h => by cases h) (fun _ _ _ _ => by simp) hs
  | succ k ih => exact follow_ok_iff (fun _ _ _ h => seen_resolve h) (fun _ _ _ hs => ih hs) hs

/-! ## Without links -/

/-- There is no link at or below a position. -/
def NoLinks (root : Node N C) (base : List N) : Prop := ∀ rel target,
  root.at (base ++ rel) ≠ some (.link target)

theorem at_append {node : Node N C} {p q : List N} :
    node.at (p ++ q) = (node.at p).bind fun m => m.at q := by
  induction p generalizing node with
  | nil => rfl
  | cons n p ih =>
    cases node with
    | dir entries =>
      simp only [List.cons_append, Node.at]
      cases entries.lookup n with
      | none => rfl
      | some m => exact ih
    | file c => rfl
    | link t => rfl

theorem at_concat {node : Node N C} {p : List N} {entries : List (N × Node N C)} {n : N}
    (h : node.at p = some (.dir entries)) : node.at (p ++ [n]) = entries.lookup n := by
  rw [at_append, h, Option.bind_some, Node.at]
  cases entries.lookup n <;> rfl

omit [DecidableEq N] in
theorem mem_entriesUnder {entries : List (N × Node N C)} {n : N} {node : Node N C}
    (h : (n, node) ∈ entries) {x : List N × Node N C} (hx : x ∈ node.under) :
    (n :: x.1, x.2) ∈ entriesUnder entries := by
  induction entries with
  | nil => cases h
  | cons e entries ih =>
    obtain ⟨m, node'⟩ := e
    rw [entriesUnder, List.mem_append]
    rcases List.mem_cons.mp h with heq | h
    · cases heq
      exact Or.inl (List.mem_cons_of_mem _ (List.mem_map.mpr ⟨x, hx, rfl⟩))
    · exact Or.inr (ih h)

/-- What is below a node that is found is below the node it is found from. -/
theorem mem_under_at {node m : Node N C} {p : List N} (h : node.at p = some m)
    {x : List N × Node N C} (hx : x ∈ m.under) : (p ++ x.1, x.2) ∈ node.under := by
  induction p generalizing node with
  | nil =>
    cases h
    exact hx
  | cons n p ih =>
    cases node with
    | file content => cases h
    | link target => cases h
    | dir entries =>
      obtain ⟨node', hlookup, hat⟩ := Option.bind_eq_some_iff.mp h
      obtain ⟨l₁, l₂, hsplit, -⟩ := List.lookup_eq_some_iff.mp hlookup
      have hmem : (n, node') ∈ entries := by
        rw [hsplit]
        exact List.mem_append_right _ List.mem_cons_self
      exact mem_entriesUnder hmem (ih hat)

/-- Without links a step other than `..` stays or goes down. -/
theorem stepAt_below {base pos : List N} (hno : NoLinks root base) (hpos : base <+: pos)
    {step : Step N} (hstep : step ≠ .up) {m : Move N} (h : stepAt root pos step = .ok m) :
    m = .stay ∨ ∃ p, m = .goto p ∧ base <+: p := by
  unfold stepAt at h
  split at h
  · rename_i entries hdir
    cases step with
    | here =>
      cases h
      exact Or.inl rfl
    | up => exact absurd rfl hstep
    | name n =>
      simp only at h
      split at h
      · rename_i target hn
        obtain ⟨rel, rfl⟩ := hpos
        rw [← at_concat hdir, List.append_assoc] at hn
        exact absurd hn (hno _ target)
      · cases h
        exact Or.inr ⟨_, rfl, hpos.trans (List.prefix_append pos [n])⟩
      · cases h
  · cases h
  · cases h

/-- **Without links a path with no `..` stays below where it starts.** -/
theorem within_of_noLinks {base : List N} (hno : NoLinks root base) {k : Nat} {s s' : Spot N}
    {steps : List (Step N)} (hup : Step.up ∉ steps) (hs : s.Within base)
    (h : resolve root (fun _ => true) k s steps = .ok s') : s'.Within base := by
  have hfollow : ∀ jump, follow root (fun _ => true) jump s steps = .ok s' → s'.Within base := by
    intro jump h
    clear * - hno hup hs h
    induction steps generalizing s with
    | nil =>
      cases h
      exact hs
    | cons step steps ih =>
      have hup' : Step.up ∉ steps := fun hmem => hup (List.mem_cons_of_mem _ hmem)
      have hstep : step ≠ .up := by
        rintro rfl
        exact hup List.mem_cons_self
      rw [follow] at h
      cases hm : stepAt root s.pos step with
      | error e =>
        rw [hm] at h
        cases h
      | ok m =>
        rw [hm] at h
        rcases stepAt_below hno hs.pos hstep hm with rfl | ⟨p, rfl, hp⟩
        · exact ih hup' hs h
        · exact ih hup' (Spot.within_move.mpr ⟨hp, hs⟩) (Spot.go_bind.mp h).2
  cases k with
  | zero => exact hfollow _ h
  | succ k => exact hfollow _ h

end Follow

end FileTree

/-!
# Loops that stop at the first error

* `untilError`: a loop over a list whose body updates a state and may fail;
* **`untilError_inv`**: what the body keeps, the loop keeps, however it ends;
* `untilError_append`, `untilError_map`: loops over a list put together, and over images;
* **`untilError_flatMap`**: a loop whose body is a loop is one loop;
* `collect`: a loop that gathers what its body yields; `mem_collect`, `collect_ok_iff`;
* `forEach`, `mapEach`: a check of every item, and its image; `forEach_ok_iff`, `mapEach_ok_iff`;
* `bind_ok_iff`, `guard_ok_iff`, `mapError_ok_iff`, `ok_of_toOption`: where steps in a row succeed;
* `foldlM_inv`: what each step of a fold keeps.
-/

universe u v w

namespace Loop

variable {α : Type u} {σ : Type v} {ε : Type w}

/-- Run the body on the items in turn, up to the first error. -/
def untilError (body : α → σ → σ × Option ε) : List α → σ → σ × Option ε
  | [], s => (s, none)
  | a :: as, s => match body a s with
    | (s', none) => untilError body as s'
    | (s', some e) => (s', some e)

variable {body : α → σ → σ × Option ε}

theorem untilError_cons (a : α) (as : List α) (s : σ) : untilError body (a :: as) s =
    match (body a s).2 with
    | none => untilError body as (body a s).1
    | some e => ((body a s).1, some e) := by
  rw [untilError]
  cases body a s with
  | mk s' o => cases o <;> rfl

theorem untilError_singleton (a : α) (s : σ) : untilError body [a] s = body a s := by
  rw [untilError_cons]
  cases body a s with
  | mk s' o => cases o <;> rfl

/-- **A property that the body keeps on every item is kept by the loop.** -/
theorem untilError_inv {I : σ → Prop} {as : List α}
    (hbody : ∀ a ∈ as, ∀ s, I s → I (body a s).1) {s : σ} (hs : I s) :
    I (untilError body as s).1 := by
  induction as generalizing s with
  | nil => exact hs
  | cons a as ih =>
    have hfirst := hbody a List.mem_cons_self s hs
    rw [untilError_cons]
    cases (body a s).2 with
    | some e => exact hfirst
    | none => exact ih (fun b hb => hbody b (List.mem_cons_of_mem a hb)) hfirst

theorem untilError_append (as bs : List α) (s : σ) : untilError body (as ++ bs) s =
    match (untilError body as s).2 with
    | none => untilError body bs (untilError body as s).1
    | some e => ((untilError body as s).1, some e) := by
  induction as generalizing s with
  | nil => rfl
  | cons a as ih =>
    rw [List.cons_append, untilError_cons, untilError_cons]
    cases (body a s).2 with
    | some e => rfl
    | none => exact ih _

theorem untilError_map {β : Type u} (f : β → α) (bs : List β) (s : σ) :
    untilError body (bs.map f) s = untilError (fun b => body (f b)) bs s := by
  induction bs generalizing s with
  | nil => rfl
  | cons b bs ih =>
    rw [List.map_cons, untilError_cons, untilError_cons]
    cases (body (f b) s).2 with
    | some e => rfl
    | none => exact ih _

/-- **A loop whose body is itself a loop runs through the items of all of its items.** -/
theorem untilError_flatMap {β : Type u} {outer : β → σ → σ × Option ε} {f : β → List α}
    (h : ∀ b s, outer b s = untilError body (f b) s) (bs : List β) (s : σ) :
    untilError outer bs s = untilError body (bs.flatMap f) s := by
  induction bs generalizing s with
  | nil => rfl
  | cons b bs ih =>
    rw [List.flatMap_cons, untilError_append, untilError_cons, h]
    cases (untilError body (f b) s).2 with
    | some e => rfl
    | none => exact ih _

/-! ## Gathering -/

variable {β : Type v}

/-- What the body yields for the items in turn, up to the first error. -/
def collect (body : α → Except ε (List β)) : List α → List β × Option ε
  | [] => ([], none)
  | a :: as => match body a with
    | .error e => ([], some e)
    | .ok bs => (bs ++ (collect body as).1, (collect body as).2)

/-- What is gathered is yielded for an item with no error before it. -/
theorem mem_collect {body : α → Except ε (List β)} {as : List α} {b : β} :
    b ∈ (collect body as).1 ↔ ∃ pre a post bs, as = pre ++ a :: post ∧
      (∀ x ∈ pre, ∃ bs, body x = .ok bs) ∧ body a = .ok bs ∧ b ∈ bs := by
  induction as with
  | nil => simp [collect]
  | cons a as ih =>
    rw [collect]
    cases ha : body a with
    | error e =>
      refine iff_of_false List.not_mem_nil ?_
      rintro ⟨pre, a', post, bs, hsplit, hpre, ha', -⟩
      cases pre with
      | nil =>
        rw [List.nil_append] at hsplit
        cases hsplit
        rw [ha] at ha'
        cases ha'
      | cons x pre =>
        cases hsplit
        obtain ⟨bs, hx⟩ := hpre a List.mem_cons_self
        rw [ha] at hx
        cases hx
    | ok bs =>
      simp only [List.mem_append, ih]
      constructor
      · rintro (hb | ⟨pre, a', post, bs', rfl, hpre, ha', hb⟩)
        · exact ⟨[], a, as, bs, rfl, fun _ hx => absurd hx List.not_mem_nil, ha, hb⟩
        · refine ⟨a :: pre, a', post, bs', rfl, fun x hx => ?_, ha', hb⟩
          rcases List.mem_cons.mp hx with rfl | hx
          · exact ⟨bs, ha⟩
          · exact hpre x hx
      · rintro ⟨pre, a', post, bs', hsplit, hpre, ha', hb⟩
        cases pre with
        | nil =>
          rw [List.nil_append] at hsplit
          cases hsplit
          rw [ha] at ha'
          cases ha'
          exact Or.inl hb
        | cons x pre =>
          cases hsplit
          exact Or.inr ⟨pre, a', post, bs', rfl, fun y hy => hpre y (List.mem_cons_of_mem _ hy), ha', hb⟩

theorem collect_ok_iff {body : α → Except ε (List β)} {as : List α} :
    (collect body as).2 = none ↔ ∀ a ∈ as, ∃ bs, body a = .ok bs := by
  induction as with
  | nil => simp [collect]
  | cons a as ih =>
    rw [collect, List.forall_mem_cons]
    cases ha : body a with
    | error e => simp
    | ok bs => simp [ih]

/-- Where every item yields one, these are gathered. -/
theorem collect_map {body : α → Except ε (List β)} {g : α → β} {as : List α}
    (h : ∀ a ∈ as, body a = .ok [g a]) : collect body as = (as.map g, none) := by
  induction as with
  | nil => rfl
  | cons a as ih =>
    rw [collect, h a List.mem_cons_self, ih fun b hb => h b (List.mem_cons_of_mem a hb)]
    rfl

/-! ## Checks and images -/

/-- Check the items in turn, up to the first error. -/
def forEach (check : α → Except ε PUnit) : List α → Except ε PUnit
  | [] => .ok ⟨⟩
  | a :: as => match check a with
    | .error e => .error e
    | .ok _ => forEach check as

theorem forEach_ok_iff {check : α → Except ε PUnit} {as : List α} :
    forEach check as = .ok ⟨⟩ ↔ ∀ a ∈ as, check a = .ok ⟨⟩ := by
  induction as with
  | nil => simp [forEach]
  | cons a as ih =>
    rw [forEach, List.forall_mem_cons]
    cases ha : check a with
    | error e => simp
    | ok u => simp [ih]

/-- The images of the items in turn, up to the first error. -/
def mapEach (f : α → Except ε β) : List α → Except ε (List β)
  | [] => .ok []
  | a :: as => match f a with
    | .error e => .error e
    | .ok b => (mapEach f as).map (b :: ·)

theorem mapEach_ok_iff {f : α → Except ε β} {as : List α} {bs : List β} :
    mapEach f as = .ok bs ↔ as.map f = bs.map .ok := by
  induction as generalizing bs with
  | nil => simp [mapEach, eq_comm]
  | cons a as ih =>
    rw [mapEach, List.map_cons]
    cases ha : f a with
    | error e => cases bs <;> simp
    | ok b =>
      cases hrest : mapEach f as with
      | error e =>
        have hne : ∀ cs : List β, as.map f ≠ cs.map .ok := fun cs hcs => by
          rw [ih.mpr hcs] at hrest
          cases hrest
        cases bs <;> simp [Except.map, hne]
      | ok cs =>
        rw [ih] at hrest
        have hinj : ∀ ds : List β, (cs.map .ok = ds.map (.ok : β → Except ε β)) ↔ cs = ds :=
          fun ds => List.map_inj_right fun _ _ h => by cases h; rfl
        cases bs <;> simp [Except.map, hrest, hinj]

/-! ## Steps in a row -/

theorem bind_ok_iff {γ β : Type v} {x : Except ε γ} {f : γ → Except ε β} {b : β} :
    (x >>= f) = .ok b ↔ ∃ c, x = .ok c ∧ f c = .ok b := by
  cases x with
  | error e =>
    constructor
    · intro h
      cases h
    · rintro ⟨_, h, _⟩
      cases h
  | ok c =>
    constructor
    · exact fun h => ⟨c, rfl, h⟩
    · rintro ⟨_, h, hf⟩
      cases h
      exact hf

/-- What each step of a fold keeps, a fold that succeeds keeps. -/
theorem foldlM_inv {γ : Type u} {I : β → Prop} {f : β → γ → Except ε β} {cs : List γ}
    (hstep : ∀ c ∈ cs, ∀ s s', I s → f s c = .ok s' → I s') {s s' : β} (hs : I s)
    (h : cs.foldlM f s = .ok s') : I s' := by
  induction cs generalizing s with
  | nil =>
    cases h
    exact hs
  | cons c cs ih =>
    rw [List.foldlM_cons] at h
    obtain ⟨s₁, hc, hcs⟩ := bind_ok_iff.mp h
    exact ih (fun d hd => hstep d (List.mem_cons_of_mem c hd))
      (hstep c List.mem_cons_self s s₁ hs hc) hcs

theorem ok_of_toOption {x : Except ε β} {b : β} (h : x.toOption = some b) : x = .ok b := by
  cases x with
  | error e => cases h
  | ok a => exact congrArg Except.ok (Option.some.inj h)

theorem guard_ok_iff {p : Prop} [Decidable p] {e : ε} {x : Except ε β} {b : β} :
    (if p then .error e else x) = .ok b ↔ ¬ p ∧ x = .ok b := by
  by_cases h : p <;> simp [h]

theorem mapError_ok {ε' : Type w} {g : ε' → ε} {b : β} :
    (.ok b : Except ε' β).mapError g = .ok b := rfl

theorem mapError_ok_iff {ε' : Type w} {g : ε' → ε} {x : Except ε' β} {b : β} :
    x.mapError g = .ok b ↔ x = .ok b := by
  cases x with
  | error e => exact ⟨nofun, nofun⟩
  | ok a => rw [mapError_ok, Except.ok.injEq, Except.ok.injEq]

end Loop

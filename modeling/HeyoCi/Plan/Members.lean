import Mathlib.Data.String.Basic
import HeyoCi.Json

/-!
# Members of an object

An object is a map: its keys are sorted, and a member that is inserted replaces the one of its key.

* `Keyed`: the keys are sorted; `keyed_insert`, `keyed_extend`;
* `has`, `keeps`: an object has all members of another, or none of its keys with another value;
* `extend_nil`, `extend_of_has`, `get_extend`, `has_extend`: an object with the members of another.
-/

namespace HeyoCi.Json.Obj

/-- The keys of a map are sorted, and each is there once. -/
def Keyed (o : Obj) : Prop := (o.map Prod.fst).Pairwise (· < ·)

/-- The object has all members of another. -/
def has (o e : Obj) : Bool := e.all fun kv => get o kv.1 = some kv.2

/-- The object has no key of another with a different value. -/
def keeps (o e : Obj) : Bool := e.all fun kv => (get o kv.1).all (· = kv.2)

variable {o e : Obj} {k : String} {v w : Json}

theorem has_iff : has o e = true ↔ ∀ k v, (k, v) ∈ e → get o k = some v := by
  simp [has]

theorem keeps_iff : keeps o e = true ↔ ∀ k v, (k, v) ∈ e → ∀ w, get o k = some w → w = v := by
  simp [keeps, Option.all_eq_true]

theorem keeps_of_has (h : has o e = true) : keeps o e = true := by
  rw [has_iff] at h
  refine keeps_iff.mpr fun k v hkv w hw => ?_
  rw [h k v hkv] at hw
  exact (Option.some.inj hw).symm

theorem keeps_eq_false_iff : keeps o e = false ↔
    ∃ k v w, (k, v) ∈ e ∧ get o k = some w ∧ w ≠ v := by
  rw [← Bool.not_eq_true, keeps_iff]
  simp only [not_forall]
  constructor
  · rintro ⟨k, v, hkv, w, hw, hne⟩
    exact ⟨k, v, w, hkv, hw, hne⟩
  · rintro ⟨k, v, w, hkv, hw, hne⟩
    exact ⟨k, v, hkv, w, hw, hne⟩

theorem mem_of_get (h : get o k = some v) : (k, v) ∈ o := by
  obtain ⟨l₁, l₂, rfl, -⟩ := List.lookup_eq_some_iff.mp h
  simp

theorem get_of_mem (ho : (o.map Prod.fst).Nodup) (h : (k, v) ∈ o) : get o k = some v := by
  obtain ⟨l₁, l₂, rfl⟩ := List.append_of_mem h
  refine List.lookup_eq_some_iff.mpr ⟨l₁, l₂, rfl, fun p hp => ?_⟩
  rw [List.map_append, List.map_cons, List.nodup_append] at ho
  exact bne_iff_ne.mpr fun heq => ho.2.2 p.1 (List.mem_map_of_mem hp) k (by simp) heq.symm

theorem Keyed.nodup (h : Keyed o) : (o.map Prod.fst).Nodup := h.imp fun hlt => ne_of_lt hlt

/-! ## Insertion -/

theorem mem_keys_insert {x : String} (h : x ∈ (insert k v o).map Prod.fst) :
    x = k ∨ x ∈ o.map Prod.fst := by
  induction o with
  | nil => simpa [insert] using h
  | cons m o ih =>
    obtain ⟨l, u⟩ := m
    unfold insert at h
    split_ifs at h with hl hlt
    · rcases List.mem_cons.mp h with rfl | h
      · exact Or.inl rfl
      · exact Or.inr (List.mem_cons_of_mem _ h)
    · exact List.mem_cons.mp h
    · rcases List.mem_cons.mp h with rfl | h
      · exact Or.inr (by simp)
      · exact (ih h).imp_right (List.mem_cons_of_mem _)

theorem keyed_insert (h : Keyed o) : Keyed (insert k v o) := by
  induction o with
  | nil => simp [insert, Keyed]
  | cons m o ih =>
    obtain ⟨l, u⟩ := m
    obtain ⟨hl, ho⟩ := List.pairwise_cons.mp h
    unfold insert
    split_ifs with heq hlt
    · subst heq
      exact h
    · refine List.pairwise_cons.mpr ⟨fun x hx => ?_, h⟩
      rcases List.mem_cons.mp hx with rfl | hx
      · exact hlt
      · exact hlt.trans (hl x hx)
    · refine List.pairwise_cons.mpr ⟨fun x hx => ?_, ih ho⟩
      rcases mem_keys_insert hx with rfl | hx
      · exact lt_of_le_of_ne (not_lt.mp hlt) (Ne.symm heq)
      · exact hl x hx

/-- A member that is there already changes nothing. -/
theorem insert_of_get (ho : Keyed o) (h : get o k = some v) : insert k v o = o := by
  induction o with
  | nil => cases h
  | cons m o ih =>
    obtain ⟨l, u⟩ := m
    obtain ⟨hl, hkeyed⟩ := List.pairwise_cons.mp ho
    unfold insert
    by_cases heq : k = l
    · subst heq
      rw [get, List.lookup_cons_self] at h
      rw [if_pos rfl, Option.some.inj h]
    · rw [get, List.lookup_cons, beq_false_of_ne heq] at h
      have hmem : k ∈ o.map Prod.fst := List.mem_map_of_mem (mem_of_get h)
      rw [if_neg heq, if_neg (hl k hmem).asymm, ih hkeyed h]

/-- A key behind all others comes last. -/
theorem insert_of_lt (h : ∀ x ∈ o.map Prod.fst, x < k) : insert k v o = o ++ [(k, v)] := by
  induction o with
  | nil => rfl
  | cons m o ih =>
    obtain ⟨l, u⟩ := m
    have hl : l < k := h l (by simp)
    unfold insert
    rw [if_neg hl.ne', if_neg hl.asymm, ih fun x hx => h x (List.mem_cons_of_mem _ hx)]
    rfl

/-! ## Extension -/

theorem extend_cons (kv : String × Json) : extend o (kv :: e) = extend (insert kv.1 kv.2 o) e := rfl

theorem keyed_extend (h : Keyed o) : Keyed (extend o e) := by
  induction e generalizing o with
  | nil => exact h
  | cons kv e ih => exact ih (keyed_insert h)

theorem extend_of_has (ho : Keyed o) (h : has o e = true) : extend o e = o := by
  rw [has_iff] at h
  induction e with
  | nil => rfl
  | cons kv e ih =>
    rw [extend_cons, insert_of_get ho (h kv.1 kv.2 (by simp))]
    exact ih fun k v hkv => h k v (List.mem_cons_of_mem _ hkv)

theorem extend_append (h : Keyed (o ++ e)) : extend o e = o ++ e := by
  induction e generalizing o with
  | nil => exact (List.append_nil o).symm
  | cons kv e ih =>
    have hkeyed := h
    rw [Keyed, List.map_append, List.map_cons, List.pairwise_append] at hkeyed
    have hlast : ∀ x ∈ o.map Prod.fst, x < kv.1 := fun x hx => hkeyed.2.2 x hx kv.1 (by simp)
    rw [List.append_cons] at h ⊢
    rw [extend_cons, insert_of_lt hlast]
    exact ih h

theorem extend_nil (h : Keyed e) : extend [] e = e := extend_append h

/-- A value that an extension does not replace by another one stays. -/
theorem get_extend (ho : get o k = some w) (he : ∀ v, (k, v) ∈ e → v = w) :
    get (extend o e) k = some w := by
  induction e generalizing o with
  | nil => exact ho
  | cons kv e ih =>
    rw [extend_cons]
    refine ih ?_ fun v hv => he v (List.mem_cons_of_mem _ hv)
    by_cases heq : k = kv.1
    · rw [← he kv.2 (by rw [heq]; simp), heq]
      exact get_insert _ _ _
    · rw [get_insert_of_ne heq, ho]

theorem get_extend_of_keeps (h : keeps o e = true) (hk : get o k = some w) :
    get (extend o e) k = some w :=
  get_extend hk fun v hkv => (keeps_iff.mp h k v hkv w hk).symm

theorem has_extend (he : (e.map Prod.fst).Nodup) : has (extend o e) e = true := by
  rw [has_iff]
  induction e generalizing o with
  | nil => simp
  | cons kv e ih =>
    obtain ⟨hkv, he⟩ := List.nodup_cons.mp he
    intro k v hmem
    rw [extend_cons]
    rcases List.mem_cons.mp hmem with heq | hmem
    · obtain ⟨rfl, rfl⟩ := heq
      refine get_extend (get_insert k v o) fun u hu => ?_
      exact absurd (List.mem_map_of_mem hu) hkv
    · exact ih he k v hmem

end HeyoCi.Json.Obj
